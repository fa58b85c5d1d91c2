import FactorForth.Library.Runs
import Mathlib.Tactic.Common

/-! The command protocol of a session: callers send commands to the dispatcher, which hands them one at a
time to the listener of the VM and answers each caller when the listener is done. -/

namespace FactorForth.Session
open FactorForth.Library

/-- A call of `eval`. `reply` stands for the reply channel that is made for the call. -/
structure Command where
  reply : Nat
  source : String
deriving DecidableEq, Repr

inductive Message where
  | eval (c : Command)
  | shutdown
deriving DecidableEq, Repr

/-- What stands in `listener_pending`. -/
inductive Pending where
  | source (c : Command)
  | exit
deriving DecidableEq, Repr

/-- Where the dispatcher stands with the command it has received. -/
inductive Dispatcher where
  | idle
  | clearing (c : Command)
  | pushing (c : Command)
  | waiting (c : Command)
  | flushing (c : Command)
  | replying (c : Command)
  | clearingExit
  | pushingExit
  | stopped
deriving DecidableEq, Repr

inductive Listener where
  | fetching
  | evaluating (c : Command)
  | finished (c : Command)
  | exited
deriving DecidableEq, Repr

/-- The shared slots and the two threads, with the commands that were sent, fetched by the listener,
completed and answered, the oldest first. -/
structure State where
  queue : List Message
  dispatcher : Dispatcher
  pending : Option Pending
  done : Bool
  listener : Listener
  closed : Bool
  sent : List Command
  handed : List Command
  completed : List Command
  answered : List Command
deriving DecidableEq, Repr

def State.start : State := ⟨[], .idle, none, false, .fetching, false, [], [], [], []⟩

/-- A caller that gives up waiting changes nothing here: its reply is sent to nobody, and the interrupt
it asks for is one of the ways an eval ends. -/
inductive Action where
  | eval (source : String)
  | drop
  | recv
  | clear
  | push
  | wake
  | flush
  | reply
  | fetch
  /-- `nf-listener-eval` returns, also behind a run-time error. -/
  | ends
  /-- A panic in a callback, caught at the end of the worker thread. -/
  | panics
  | commandDone
deriving DecidableEq, Repr

def State.act (s : State) : Action → Option State
  | .eval source =>
    if s.closed then none
    else
      let c : Command := ⟨s.sent.length, source⟩
      some { s with queue := s.queue ++ [.eval c], sent := s.sent ++ [c] }
  | .drop => if s.closed then none else some { s with queue := s.queue ++ [.shutdown], closed := true }
  | .recv =>
    match s.dispatcher, s.queue with
    | .idle, .eval c :: queue => some { s with queue := queue, dispatcher := .clearing c }
    | .idle, .shutdown :: queue => some { s with queue := queue, dispatcher := .clearingExit }
    | _, _ => none
  | .clear =>
    match s.dispatcher with
    | .clearing c => some { s with done := false, dispatcher := .pushing c }
    | .clearingExit => some { s with done := false, dispatcher := .pushingExit }
    | _ => none
  | .push =>
    match s.dispatcher with
    | .pushing c => some { s with pending := some (.source c), dispatcher := .waiting c }
    | .pushingExit => some { s with pending := some .exit, dispatcher := .stopped }
    | _ => none
  | .wake =>
    match s.dispatcher, s.done with
    | .waiting c, true => some { s with dispatcher := .flushing c }
    | _, _ => none
  | .flush =>
    match s.dispatcher with
    | .flushing c => some { s with dispatcher := .replying c }
    | _ => none
  | .reply =>
    match s.dispatcher with
    | .replying c => some { s with dispatcher := .idle, answered := s.answered ++ [c] }
    | _ => none
  | .fetch =>
    match s.listener, s.pending with
    | .fetching, some (.source c) =>
      -- a source with a NUL is no C string: the listener gets a null pointer, which tells it to exit
      if c.source.toList.contains (Char.ofNat 0) then
        some { s with pending := none, listener := .exited }
      else some { s with pending := none, listener := .evaluating c, handed := s.handed ++ [c] }
    | .fetching, some .exit => some { s with pending := none, listener := .exited }
    | _, _ => none
  | .ends =>
    match s.listener with
    | .evaluating c => some { s with listener := .finished c }
    | _ => none
  | .panics =>
    match s.listener with
    | .evaluating _ => some { s with listener := .exited }
    | _ => none
  | .commandDone =>
    match s.listener with
    | .finished c =>
      some { s with listener := .fetching, done := true, completed := s.completed ++ [c] }
    | _ => none

/-- The steps of the dispatcher and of the listener. -/
def Action.own : Action → Bool
  | .eval _ => false
  | .drop => false
  | .panics => false
  | _ => true

/-- Whatever the threads do next, every command that was sent is answered in the end. -/
inductive Settles : State → Prop where
  | all {s : State} (h : s.answered = s.sent) : Settles s
  | step {s : State} (hEnabled : ∃ a t, Action.own a = true ∧ s.act a = some t)
      (hNext : ∀ a t, Action.own a = true → s.act a = some t → Settles t) : Settles s

/-- Commands are fetched in the order sent and once each, completed when they have been fetched and
answered when they have been completed; and nobody waits forever. -/
structure Delivers (s : State) : Prop where
  numbered : s.sent.map Command.reply = List.range s.sent.length
  handed : s.handed <+: s.sent
  completed : s.completed <+: s.handed
  answered : s.answered <+: s.completed
  settles : Settles s

/-- No source has a NUL in it and no eval panics. -/
def Action.plain : Action → Bool
  | .eval source => !source.toList.contains (Char.ofNat 0)
  | .panics => false
  | _ => true

def Step (s : State) (a : Action) (t : State) : Prop := s.act a = some t

def PlainStep (s : State) (a : Action) (t : State) : Prop := a.plain = true ∧ Step s a t

/-! The stages of the protocol. -/

def messages (cs : List Command) (closed : Bool) : List Message :=
  cs.map .eval ++ if closed then [.shutdown] else []

theorem messages_snoc (cs : List Command) (c : Command) :
    messages cs false ++ [.eval c] = messages (cs ++ [c]) false := by
  simp [messages]

theorem messages_close (cs : List Command) :
    messages cs false ++ [.shutdown] = messages cs true := by
  simp [messages]

/-- Where the two threads and their slots stand when the commands `old` are answered, and what of `old`
and the command under way has been handed out and completed. -/
inductive Phase (old : List Command) : Option Command → Dispatcher → Option Pending → Bool → Listener →
    List Command → List Command → Prop where
  | idle (done : Bool) : Phase old none .idle none done .fetching old old
  | clearing (c : Command) (done : Bool) :
      Phase old (some c) (.clearing c) none done .fetching old old
  | pushing (c : Command) : Phase old (some c) (.pushing c) none false .fetching old old
  | pushed (c : Command) :
      Phase old (some c) (.waiting c) (some (.source c)) false .fetching old old
  | evaluating (c : Command) :
      Phase old (some c) (.waiting c) none false (.evaluating c) (old ++ [c]) old
  | finished (c : Command) :
      Phase old (some c) (.waiting c) none false (.finished c) (old ++ [c]) old
  | completed (c : Command) :
      Phase old (some c) (.waiting c) none true .fetching (old ++ [c]) (old ++ [c])
  | flushing (c : Command) :
      Phase old (some c) (.flushing c) none true .fetching (old ++ [c]) (old ++ [c])
  | replying (c : Command) :
      Phase old (some c) (.replying c) none true .fetching (old ++ [c]) (old ++ [c])

/-- The commands `old` are answered, one may be under way, and `cs` wait in the queue. -/
structure Working (old : List Command) (flight : Option Command) (cs : List Command) (s : State) :
    Prop where
  queue : s.queue = messages cs s.closed
  sent : s.sent = old ++ flight.toList ++ cs
  answered : s.answered = old
  phase : Phase old flight s.dispatcher s.pending s.done s.listener s.handed s.completed

/-- The dispatcher has received the shutdown, behind which nothing was sent. -/
inductive Leaving : State → Prop where
  | clearing (old : List Command) (done : Bool) :
      Leaving ⟨[], .clearingExit, none, done, .fetching, true, old, old, old, old⟩
  | pushing (old : List Command) :
      Leaving ⟨[], .pushingExit, none, false, .fetching, true, old, old, old, old⟩
  | pushed (old : List Command) :
      Leaving ⟨[], .stopped, some .exit, false, .fetching, true, old, old, old, old⟩
  | exited (old : List Command) :
      Leaving ⟨[], .stopped, none, false, .exited, true, old, old, old, old⟩

def Stage (s : State) : Prop := (∃ old flight cs, Working old flight cs s) ∨ Leaving s

theorem Working.send {old cs : List Command} {flight : Option Command} {s t : State}
    {source : String} (h : Working old flight cs s) (hAct : s.act (.eval source) = some t) :
    t.sent = s.sent ++ [⟨s.sent.length, source⟩] ∧
      Working old flight (cs ++ [⟨s.sent.length, source⟩]) t := by
  simp only [State.act] at hAct
  split at hAct
  · cases hAct
  · next hOpen =>
    obtain rfl := Option.some.inj hAct
    have hClosed : s.closed = false := eq_false_of_ne_true hOpen
    refine ⟨rfl, ?_, ?_, h.answered, h.phase⟩
    · show s.queue ++ _ = messages _ s.closed
      rw [h.queue, hClosed, messages_snoc]
    · show s.sent ++ _ = _
      rw [← List.append_assoc, ← h.sent]

theorem Working.close {old cs : List Command} {flight : Option Command} {s t : State}
    (h : Working old flight cs s) (hAct : s.act .drop = some t) :
    t.sent = s.sent ∧ Working old flight cs t := by
  simp only [State.act] at hAct
  split at hAct
  · cases hAct
  · next hOpen =>
    obtain rfl := Option.some.inj hAct
    have hClosed : s.closed = false := eq_false_of_ne_true hOpen
    refine ⟨rfl, ?_, h.sent, h.answered, h.phase⟩
    show s.queue ++ _ = messages _ true
    rw [h.queue, hClosed, messages_close]

/-- The step the dispatcher can take, and that of the listener. -/
def Dispatcher.moves (done : Bool) : Dispatcher → List Action
  | .idle => [.recv]
  | .clearing _ => [.clear]
  | .clearingExit => [.clear]
  | .pushing _ => [.push]
  | .pushingExit => [.push]
  | .waiting _ => if done then [.wake] else []
  | .flushing _ => [.flush]
  | .replying _ => [.reply]
  | .stopped => []

def Listener.moves (pending : Option Pending) : Listener → List Action
  | .fetching => if pending.isSome then [.fetch] else []
  | .evaluating _ => [.ends]
  | .finished _ => [.commandDone]
  | .exited => []

theorem mem_moves {s t : State} {a : Action} (hOwn : a.own = true) (hAct : s.act a = some t) :
    a ∈ s.dispatcher.moves s.done ++ s.listener.moves s.pending := by
  obtain ⟨queue, dispatcher, pending, done, listener, closed, sent, handed, completed, answered⟩ := s
  cases a with
  | eval _ => cases hOwn
  | drop => cases hOwn
  | panics => cases hOwn
  | fetch =>
    simp only [State.act] at hAct
    split at hAct
    · simp [Listener.moves]
    · simp [Listener.moves]
    · cases hAct
  | _ =>
    simp only [State.act] at hAct
    split at hAct
    all_goals cases hAct
    all_goals simp [Dispatcher.moves, Listener.moves]

/-- The steps that are left until the answers are out: those of the command under way, and ten for each
that waits. -/
def State.left (s : State) : Nat :=
  10 * s.queue.length + match s.dispatcher, s.listener, s.done with
    | .idle, _, _ => 0
    | .clearing _, _, _ => 8
    | .pushing _, _, _ => 7
    | .waiting _, .fetching, false => 6
    | .waiting _, .evaluating _, _ => 5
    | .waiting _, .finished _, _ => 4
    | .waiting _, _, _ => 3
    | .flushing _, _, _ => 2
    | .replying _, _, _ => 1
    | .clearingExit, _, _ => 3
    | .pushingExit, _, _ => 2
    | .stopped, .fetching, _ => 1
    | .stopped, _, _ => 0

/-- A step of the dispatcher or the listener leads to the next stage. -/
theorem Working.own_step {old cs : List Command} {flight : Option Command} {s t : State} {a : Action}
    (h : Working old flight cs s)
    (hPlain : ∀ c ∈ s.sent, c.source.toList.contains (Char.ofNat 0) = false)
    (hOwn : a.own = true) (hAct : s.act a = some t) :
    Stage t ∧ t.sent = s.sent ∧ t.left < s.left := by
  obtain ⟨queue, dispatcher, pending, done, listener, closed, sent, handed, completed, answered⟩ := s
  obtain ⟨hQueue, hSent, hAnswered, hPhase⟩ := h
  dsimp only at hQueue hSent hAnswered hPhase hPlain
  subst hQueue hSent hAnswered
  -- one case a stage: the queue and the phase fix the one action that can run
  cases hPhase with
  | idle done =>
    obtain rfl := List.mem_singleton.1 (mem_moves hOwn hAct)
    cases cs with
    | nil =>
      cases closed with
      -- nothing to take from an open queue that is empty
      | false => cases hAct
      | true =>
        obtain rfl := Option.some.inj hAct
        have hNone : handed ++ (none : Option Command).toList ++ [] = handed := by simp
        rw [hNone]
        refine ⟨.inr (.clearing _ done), rfl, ?_⟩
        show 3 < 10
        decide
    | cons c cs =>
      obtain rfl := Option.some.inj hAct
      refine ⟨.inl ⟨_, some c, cs, rfl, ?_, rfl, .clearing c done⟩, rfl, ?_⟩
      · simp
      · -- taking a message trades its ten for the eight stages of one command
        show 10 * (messages cs closed).length + 8 < 10 * ((messages cs closed).length + 1) + 0
        omega
  | clearing c done =>
    obtain rfl := List.mem_singleton.1 (mem_moves hOwn hAct)
    obtain rfl := Option.some.inj hAct
    exact ⟨.inl ⟨_, _, _, rfl, rfl, rfl, .pushing c⟩, rfl, Nat.lt_succ_self _⟩
  | pushing c =>
    obtain rfl := List.mem_singleton.1 (mem_moves hOwn hAct)
    obtain rfl := Option.some.inj hAct
    exact ⟨.inl ⟨_, _, _, rfl, rfl, rfl, .pushed c⟩, rfl, Nat.lt_succ_self _⟩
  | pushed c =>
    obtain rfl := List.mem_singleton.1 (mem_moves hOwn hAct)
    -- the source reaches the listener whole: no NUL cuts it
    have hSource : c.source.toList.contains (Char.ofNat 0) = false := hPlain c (by simp)
    simp only [State.act, hSource, Bool.false_eq_true, if_false] at hAct
    obtain rfl := Option.some.inj hAct
    exact ⟨.inl ⟨_, _, _, rfl, rfl, rfl, .evaluating c⟩, rfl, Nat.lt_succ_self _⟩
  | evaluating c =>
    obtain rfl := List.mem_singleton.1 (mem_moves hOwn hAct)
    obtain rfl := Option.some.inj hAct
    exact ⟨.inl ⟨_, _, _, rfl, rfl, rfl, .finished c⟩, rfl, Nat.lt_succ_self _⟩
  | finished c =>
    obtain rfl := List.mem_singleton.1 (mem_moves hOwn hAct)
    obtain rfl := Option.some.inj hAct
    exact ⟨.inl ⟨_, _, _, rfl, rfl, rfl, .completed c⟩, rfl, Nat.lt_succ_self _⟩
  | completed c =>
    obtain rfl := List.mem_singleton.1 (mem_moves hOwn hAct)
    obtain rfl := Option.some.inj hAct
    exact ⟨.inl ⟨_, _, _, rfl, rfl, rfl, .flushing c⟩, rfl, Nat.lt_succ_self _⟩
  | flushing c =>
    obtain rfl := List.mem_singleton.1 (mem_moves hOwn hAct)
    obtain rfl := Option.some.inj hAct
    exact ⟨.inl ⟨_, _, _, rfl, rfl, rfl, .replying c⟩, rfl, Nat.lt_succ_self _⟩
  | replying c =>
    obtain rfl := List.mem_singleton.1 (mem_moves hOwn hAct)
    obtain rfl := Option.some.inj hAct
    refine ⟨.inl ⟨_, none, cs, rfl, ?_, rfl, .idle true⟩, rfl, Nat.lt_succ_self _⟩
    simp

theorem Leaving.own_step {s t : State} {a : Action} (h : Leaving s) (hOwn : a.own = true)
    (hAct : s.act a = some t) : Stage t ∧ t.sent = s.sent ∧ t.left < s.left := by
  cases h with
  | clearing old done =>
    obtain rfl := List.mem_singleton.1 (mem_moves hOwn hAct)
    obtain rfl := Option.some.inj hAct
    exact ⟨.inr (.pushing old), rfl, Nat.lt_succ_self _⟩
  | pushing old =>
    obtain rfl := List.mem_singleton.1 (mem_moves hOwn hAct)
    obtain rfl := Option.some.inj hAct
    exact ⟨.inr (.pushed old), rfl, Nat.lt_succ_self _⟩
  | pushed old =>
    obtain rfl := List.mem_singleton.1 (mem_moves hOwn hAct)
    obtain rfl := Option.some.inj hAct
    exact ⟨.inr (.exited old), rfl, Nat.lt_succ_self _⟩
  | exited old => exact absurd (mem_moves hOwn hAct) List.not_mem_nil

/-- While a command is unanswered one of the threads can go on. -/
theorem Working.enabled {old cs : List Command} {flight : Option Command} {s : State}
    (h : Working old flight cs s) (hLeft : s.answered ≠ s.sent) :
    ∃ a t, Action.own a = true ∧ s.act a = some t := by
  obtain ⟨queue, dispatcher, pending, done, listener, closed, sent, handed, completed, answered⟩ := s
  obtain ⟨hQueue, hSent, hAnswered, hPhase⟩ := h
  dsimp only at hQueue hSent hAnswered hPhase hLeft
  subst hQueue hSent hAnswered
  cases hPhase with
  | idle done =>
    cases cs with
    | nil => exact absurd (by simp) hLeft
    | cons c cs => exact ⟨.recv, _, rfl, rfl⟩
  | clearing c done => exact ⟨.clear, _, rfl, rfl⟩
  | pushing c => exact ⟨.push, _, rfl, rfl⟩
  | pushed c =>
    cases hNul : c.source.toList.contains (Char.ofNat 0) with
    | true => exact ⟨.fetch, _, rfl, if_pos hNul⟩
    | false => exact ⟨.fetch, _, rfl, if_neg (ne_true_of_eq_false hNul)⟩
  | evaluating c => exact ⟨.ends, _, rfl, rfl⟩
  | finished c => exact ⟨.commandDone, _, rfl, rfl⟩
  | completed c => exact ⟨.wake, _, rfl, rfl⟩
  | flushing c => exact ⟨.flush, _, rfl, rfl⟩
  | replying c => exact ⟨.reply, _, rfl, rfl⟩

/-! Runs. -/

/-- The state is at some stage, no source has a NUL, and the commands are numbered. -/
structure Sound (s : State) : Prop where
  stage : Stage s
  plain : ∀ c ∈ s.sent, c.source.toList.contains (Char.ofNat 0) = false
  numbered : s.sent.map Command.reply = List.range s.sent.length

theorem start_sound : Sound .start where
  stage := .inl ⟨[], none, [], rfl, rfl, rfl, .idle false⟩
  plain _ hc := absurd hc List.not_mem_nil
  numbered := rfl

theorem Sound.own_step {s t : State} {a : Action} (h : Sound s) (hOwn : a.own = true)
    (hAct : s.act a = some t) : Sound t ∧ t.left < s.left := by
  obtain ⟨hStage, hPlain, hNumbered⟩ := h
  have hNext : Stage t ∧ t.sent = s.sent ∧ t.left < s.left := by
    obtain ⟨old, flight, cs, hWorking⟩ | hLeaving := hStage
    · exact hWorking.own_step hPlain hOwn hAct
    · exact hLeaving.own_step hOwn hAct
  obtain ⟨hStage, hSent, hLess⟩ := hNext
  refine ⟨⟨hStage, ?_, ?_⟩, hLess⟩
  · rw [hSent]
    exact hPlain
  · rw [hSent]
    exact hNumbered

theorem Sound.send {s t : State} {source : String} (h : Sound s)
    (hSource : source.toList.contains (Char.ofNat 0) = false) (hAct : s.act (.eval source) = some t) :
    Sound t := by
  obtain ⟨⟨old, flight, cs, hWorking⟩ | hLeaving, hPlain, hNumbered⟩ := h
  · obtain ⟨hSent, hNext⟩ := hWorking.send hAct
    refine ⟨.inl ⟨_, _, _, hNext⟩, fun c hc => ?_, ?_⟩
    · rw [hSent] at hc
      obtain hc | hc := List.mem_append.mp hc
      · exact hPlain c hc
      · obtain rfl := List.mem_singleton.mp hc
        exact hSource
    · rw [hSent, List.map_append, hNumbered, List.length_append]
      exact List.range_succ.symm
  · cases hLeaving <;> cases hAct

theorem Sound.step {s t : State} {a : Action} (h : Sound s) (hStep : PlainStep s a t) :
    Sound t := by
  obtain ⟨hPlain, hAct⟩ := hStep
  cases hOwn : a.own with
  | true => exact (h.own_step hOwn hAct).1
  | false =>
    cases a with
    | eval source => exact h.send (Bool.not_eq_true' _ ▸ hPlain) hAct
    | drop =>
      obtain ⟨⟨old, flight, cs, hWorking⟩ | hLeaving, hSource, hNumbered⟩ := h
      · obtain ⟨hSent, hNext⟩ := hWorking.close hAct
        refine ⟨.inl ⟨_, _, _, hNext⟩, ?_, ?_⟩
        · rw [hSent]
          exact hSource
        · rw [hSent]
          exact hNumbered
      · cases hLeaving <;> cases hAct
    | panics => cases hPlain
    | _ => cases hOwn

theorem Sound.settles {s : State} (h : Sound s) : Settles s := by
  induction hLeft : s.left using Nat.strongRecOn generalizing s with
  | ind n ih =>
    by_cases hAll : s.answered = s.sent
    · exact .all hAll
    · refine .step ?_ fun a t hOwn hAct => ?_
      · obtain ⟨old, flight, cs, hWorking⟩ | hLeaving := h.stage
        · exact hWorking.enabled hAll
        · cases hLeaving <;> exact absurd rfl hAll
      · obtain ⟨hNext, hLess⟩ := h.own_step hOwn hAct
        exact ih t.left (hLeft ▸ hLess) hNext rfl

theorem Sound.delivers {s : State} (h : Sound s) : Delivers s := by
  have hSettles := h.settles
  obtain ⟨hStage, -, hNumbered⟩ := h
  obtain ⟨old, flight, cs, hWorking⟩ | hLeaving := hStage
  · obtain ⟨queue, dispatcher, pending, done, listener, closed, sent, handed, completed, answered⟩ := s
    obtain ⟨hQueue, hSent, hAnswered, hPhase⟩ := hWorking
    dsimp only at hQueue hSent hAnswered hPhase hNumbered
    subst hQueue hSent hAnswered
    have hOld : answered <+: answered ++ flight.toList ++ cs := by
      rw [List.append_assoc]
      exact List.prefix_append _ _
    refine ⟨hNumbered, ?_, ?_, ?_, hSettles⟩
    · cases hPhase <;> first | exact hOld | exact List.prefix_append _ _
    · cases hPhase <;> first | exact List.prefix_refl _ | exact List.prefix_append _ _
    · cases hPhase <;> first | exact List.prefix_refl _ | exact List.prefix_append _ _
  · cases hLeaving <;>
      exact ⟨hNumbered, List.prefix_refl _, List.prefix_refl _, List.prefix_refl _, hSettles⟩

/-- The protocol delivers in every state of a run whose sources have no NUL and whose evals do not
panic. -/
theorem protocol_delivers {as : List Action} {s : State} (h : Run PlainStep .start as s) :
    Delivers s :=
  (h.keeps (fun _ _ _ hSound hStep => hSound.step hStep) start_sound).delivers

/-- Two calls, the second made while the first is evaluated. -/
def twoCalls : List Action :=
  [.eval "1 .", .recv, .clear, .push, .fetch, .eval "2 .", .ends, .commandDone, .wake, .flush, .reply]

def twoCallsEnd : State :=
  ⟨[.eval ⟨1, "2 ."⟩], .idle, none, true, .fetching, false, [⟨0, "1 ."⟩, ⟨1, "2 ."⟩], [⟨0, "1 ."⟩],
    [⟨0, "1 ."⟩], [⟨0, "1 ."⟩]⟩

theorem protocol_delivers_twoCalls : Delivers twoCallsEnd := by
  have hRun : Run Step .start twoCalls twoCallsEnd := Run.of_foldlM (by decide)
  exact protocol_delivers (hRun.restrict (by decide))

/-- A source that is a NUL, and another call. -/
def nulCall : List Action :=
  [.eval (String.singleton (Char.ofNat 0)), .eval "1 .", .recv, .clear, .push, .fetch]

/-- The listener exits at the NUL, and neither call is answered. -/
theorem protocol_not_delivers :
    ¬ ∀ (as : List Action) (s : State), Run Step .start as s → Delivers s := by
  intro h
  let c : Command := ⟨0, String.singleton (Char.ofNat 0)⟩
  let s : State := ⟨[.eval ⟨1, "1 ."⟩], .waiting c, none, false, .exited, false, [c, ⟨1, "1 ."⟩], [],
    [], []⟩
  have hRun : Run Step .start nulCall s := Run.of_foldlM (by decide)
  have hSettles := (h nulCall s hRun).settles
  cases hSettles with
  | all hAll => cases hAll
  | step hEnabled hNext =>
    obtain ⟨a, t, hOwn, hAct⟩ := hEnabled
    exact absurd (mem_moves hOwn hAct) List.not_mem_nil

end FactorForth.Session
