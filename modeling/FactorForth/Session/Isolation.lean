import FactorForth.Library.Runs
import Mathlib.Tactic.Common

/-! Sessions in time: the callbacks of every worker find their session in one slot of the process, which
passes from a dropped session to the next. -/

namespace FactorForth.Session
open FactorForth.Library

/-- A command, with the session it was sent to. -/
structure Job where
  owner : Nat
  source : String
deriving DecidableEq, Repr

inductive Posted where
  | job (j : Job)
  | exit
deriving DecidableEq, Repr

inductive Worker where
  | fetching
  | evaluating (j : Job)
  | exited
deriving DecidableEq, Repr

inductive Sender where
  | idle
  | posting (j : Job)
  | waiting (j : Job)
  | stopped
deriving DecidableEq, Repr

inductive Fate where
  | live
  /-- A caller gave up on a command: `DeathCause::Timeout`. -/
  | timedOut
  | dropping (timedOut : Bool)
  | dropped
deriving DecidableEq, Repr

/-- A session: its two threads, the slots of its `IoState`, and what has become of it. -/
structure Life where
  worker : Worker
  sender : Sender
  posted : Option Posted
  done : Bool
  fate : Fate
deriving DecidableEq, Repr

def Life.new : Life := ⟨.fetching, .idle, none, false, .live⟩

/-- What a session was given: a command by the slot, a completion or a byte by the slot, or the end. -/
inductive Credit where
  | fetched (job : Job) (listener : Nat)
  | completed (job : Job) (session : Nat)
  | wrote (job : Job) (session : Nat)
  | uninstalled (session droppedBy : Nat)
deriving DecidableEq, Repr

def Credit.Isolated : Credit → Prop
  | .fetched job listener => job.owner = listener
  | .completed job session => job.owner = session
  | .wrote job session => job.owner = session
  | .uninstalled session droppedBy => session = droppedBy

/-- The slot `CURRENT`, and the sessions in the order they were created. -/
structure World where
  current : Option Nat
  sessions : List Life
  log : List Credit
deriving DecidableEq, Repr

def World.start : World := ⟨none, [], []⟩

def World.change (w : World) (i : Nat) (f : Life → Life) : World :=
  { w with sessions := w.sessions.modify i f }

def World.credit (w : World) (c : Credit) : World := { w with log := w.log ++ [c] }

inductive Event where
  | new
  | clear (i : Nat) (source : String)
  | post (i : Nat)
  | answer (i : Nat)
  | timeout (i : Nat)
  | fetch (i : Nat)
  | write (i : Nat)
  | commandDone (i : Nat)
  | panics (i : Nat)
  | dropStarts (i : Nat)
  | postExit (i : Nat)
  | dropEnds (i : Nat)
deriving DecidableEq, Repr

/-- An event, where it can happen. `fetch`, `write` and `commandDone` are the callbacks of worker `i`;
the lock that a waiting `nf_rt_next_command` holds on the slot only takes runs away, and so does the
queue of the commands and the shutdown that the dispatcher of `i` receives. -/
def World.act (w : World) : Event → Option World
  | .new =>
    match w.current with
    | none => some { w with current := some w.sessions.length, sessions := w.sessions ++ [.new] }
    | some _ => none
  | .clear i source =>
    match w.sessions[i]? with
    | some ⟨_, .idle, _, _, _⟩ =>
      some (w.change i fun s => { s with sender := .posting ⟨i, source⟩, done := false })
    | _ => none
  | .post i =>
    match w.sessions[i]? with
    | some ⟨_, .posting j, _, _, _⟩ =>
      some (w.change i fun s => { s with sender := .waiting j, posted := some (.job j) })
    | _ => none
  | .answer i =>
    match w.sessions[i]? with
    | some ⟨_, .waiting _, _, true, _⟩ => some (w.change i fun s => { s with sender := .idle })
    | _ => none
  | .timeout i =>
    match w.sessions[i]? with
    | some ⟨_, .waiting _, _, _, .live⟩ => some (w.change i fun s => { s with fate := .timedOut })
    | _ => none
  | .fetch i =>
    match w.sessions[i]?, w.current with
    | some ⟨.fetching, _, _, _, _⟩, none =>
      some (w.change i fun s => { s with worker := .exited })
    | some ⟨.fetching, _, _, _, _⟩, some k =>
      match w.sessions[k]? with
      | some ⟨_, _, some (.job j), _, _⟩ =>
        some (((w.change k fun s => { s with posted := none }).change i fun s =>
          { s with worker := .evaluating j }).credit (.fetched j i))
      | some ⟨_, _, some .exit, _, _⟩ =>
        some ((w.change k fun s => { s with posted := none }).change i fun s =>
          { s with worker := .exited })
      | _ => none
    | _, _ => none
  | .write i =>
    match w.sessions[i]?, w.current with
    | some ⟨.evaluating j, _, _, _, _⟩, some k => some (w.credit (.wrote j k))
    | some ⟨.evaluating _, _, _, _, _⟩, none => some w
    | _, _ => none
  | .commandDone i =>
    match w.sessions[i]?, w.current with
    | some ⟨.evaluating j, _, _, _, _⟩, some k =>
      some (((w.change k fun s => { s with done := true }).change i fun s =>
        { s with worker := .fetching }).credit (.completed j k))
    | some ⟨.evaluating _, _, _, _, _⟩, none =>
      some (w.change i fun s => { s with worker := .fetching })
    | _, _ => none
  | .panics i =>
    match w.sessions[i]? with
    | some ⟨.evaluating _, _, _, _, _⟩ => some (w.change i fun s => { s with worker := .exited })
    | _ => none
  | .dropStarts i =>
    match w.sessions[i]? with
    | some ⟨_, _, _, _, .live⟩ => some (w.change i fun s => { s with fate := .dropping false })
    | some ⟨_, _, _, _, .timedOut⟩ => some (w.change i fun s => { s with fate := .dropping true })
    | _ => none
  | .postExit i =>
    match w.sessions[i]? with
    | some ⟨_, .idle, _, _, _⟩ =>
      some (w.change i fun s => { s with sender := .stopped, posted := some .exit, done := false })
    | _ => none
  -- the worker is joined, unless the session has timed out: then it is left where it is
  | .dropEnds i =>
    match w.sessions[i]? with
    | some ⟨worker, _, _, _, .dropping timedOut⟩ =>
      if worker = .exited ∨ timedOut = true then
        let cleared := { w with current := none, log := w.log ++ (w.current.map fun k =>
          Credit.uninstalled k i).toList }
        some (cleared.change i fun s => { s with fate := .dropped })
      else none
    | _ => none

def Happens (w : World) (e : Event) (w' : World) : Prop := w.act e = some w'

/-- No session is created while the worker of an earlier one is still running. -/
def Lonely (w : World) (e : Event) : Prop :=
  e = .new → ∀ s ∈ w.sessions, s.worker = .exited

instance (w : World) (e : Event) : Decidable (Lonely w e) :=
  inferInstanceAs (Decidable (_ → _))

def Isolated (w : World) : Prop := ∀ c ∈ w.log, c.Isolated

/-! What holds of every session as long as new ones wait for the old workers. -/

/-- All commands in the hands of a session are its own. -/
structure Own (i : Nat) (s : Life) : Prop where
  posting : ∀ j, s.sender = .posting j → j.owner = i
  posted : ∀ j, s.posted = some (.job j) → j.owner = i
  evaluating : ∀ j, s.worker = .evaluating j → j.owner = i

structure Apart (w : World) : Prop where
  own : ∀ i s, w.sessions[i]? = some s → Own i s
  installed : ∀ i s, w.sessions[i]? = some s → s.fate ≠ .dropped → w.current = some i
  running : ∀ i s, w.sessions[i]? = some s → s.worker ≠ .exited →
    w.current = none ∨ w.current = some i
  log : Isolated w

theorem getElem?_change (w : World) (i j : Nat) (f : Life → Life) :
    (w.change i f).sessions[j]? = if i = j then w.sessions[j]?.map f else w.sessions[j]? := by
  show (w.sessions.modify i f)[j]? = _
  rw [List.getElem?_modify]
  split
  · rfl
  · exact congrFun Option.map_id _

theorem change_self {w : World} {i : Nat} {s : Life} (hs : w.sessions[i]? = some s) (f : Life → Life) :
    (w.change i f).sessions[i]? = some (f s) := by
  rw [getElem?_change, if_pos rfl, hs]
  rfl

theorem mem_change {w : World} {i j : Nat} {f : Life → Life} {s : Life}
    (h : (w.change i f).sessions[j]? = some s) :
    (i = j ∧ ∃ r, w.sessions[i]? = some r ∧ s = f r) ∨ w.sessions[j]? = some s := by
  rw [getElem?_change] at h
  split at h
  · next hEq =>
    obtain ⟨r, hr, hs⟩ := Option.map_eq_some_iff.mp h
    exact .inl ⟨hEq, r, hEq ▸ hr, hs.symm⟩
  · exact .inr h

namespace Apart
variable {w : World} (h : Apart w)
include h

/-- A change of one session that hands it nothing foreign and does not bring it back. -/
theorem change {i : Nat} {s : Life} {f : Life → Life} (hs : w.sessions[i]? = some s)
    (hOwn : Own i (f s)) (hFate : (f s).fate ≠ .dropped → s.fate ≠ .dropped)
    (hWorker : (f s).worker ≠ .exited → s.worker ≠ .exited) : Apart (w.change i f) := by
  have hEither : ∀ {j : Nat} {r : Life}, (w.change i f).sessions[j]? = some r →
      (i = j ∧ r = f s) ∨ w.sessions[j]? = some r := by
    intro j r hr
    obtain ⟨rfl, r', hr', rfl⟩ | hOld := mem_change hr
    · rw [hs] at hr'
      obtain rfl := Option.some.inj hr'
      exact .inl ⟨rfl, rfl⟩
    · exact .inr hOld
  constructor
  · intro j r hr
    obtain ⟨rfl, rfl⟩ | hOld := hEither hr
    · exact hOwn
    · exact h.own j r hOld
  · intro j r hr hAlive
    obtain ⟨rfl, rfl⟩ | hOld := hEither hr
    · exact h.installed i s hs (hFate hAlive)
    · exact h.installed j r hOld hAlive
  · intro j r hr hRuns
    obtain ⟨rfl, rfl⟩ | hOld := hEither hr
    · exact h.running i s hs (hWorker hRuns)
    · exact h.running j r hOld hRuns
  · exact h.log

theorem credit {c : Credit} (hc : c.Isolated) : Apart (w.credit c) where
  own := h.own
  installed := h.installed
  running := h.running
  log d hd := by
    obtain hd | hd := List.mem_append.mp hd
    · exact h.log d hd
    · obtain rfl := List.mem_singleton.mp hd
      exact hc

/-- A worker that runs while a session is installed is the worker of that session. -/
theorem current_eq {i k : Nat} {s : Life} (hs : w.sessions[i]? = some s) (hRuns : s.worker ≠ .exited)
    (hCurrent : w.current = some k) : k = i := by
  obtain hNone | hSome := h.running i s hs hRuns
  · rw [hCurrent] at hNone
    cases hNone
  · rw [hCurrent] at hSome
    exact Option.some.inj hSome

theorem new (hExited : ∀ s ∈ w.sessions, s.worker = .exited) (hCurrent : w.current = none) :
    Apart { w with current := some w.sessions.length, sessions := w.sessions ++ [.new] } := by
  have hSplit : ∀ {i : Nat} {s : Life}, (w.sessions ++ [.new])[i]? = some s →
      w.sessions[i]? = some s ∨ (i = w.sessions.length ∧ s = .new) := by
    intro i s hs
    rw [List.getElem?_append] at hs
    split at hs
    · exact .inl hs
    · next hLength =>
      obtain ⟨hi, rfl⟩ := List.getElem?_eq_some_iff.mp hs
      have hIndex : i - w.sessions.length = 0 := Nat.lt_one_iff.mp hi
      refine .inr ⟨by omega, ?_⟩
      simp only [hIndex, List.getElem_cons_zero]
  constructor
  · intro i s hs
    obtain hOld | ⟨-, rfl⟩ := hSplit hs
    · exact h.own i s hOld
    · exact ⟨nofun, nofun, nofun⟩
  · intro i s hs hAlive
    obtain hOld | ⟨rfl, -⟩ := hSplit hs
    · exact absurd ((h.installed i s hOld hAlive).symm.trans hCurrent) nofun
    · rfl
  · intro i s hs hRuns
    obtain hOld | ⟨rfl, -⟩ := hSplit hs
    · exact absurd (hExited s (List.mem_of_getElem? hOld)) hRuns
    · exact .inr rfl
  · exact h.log

/-- The end of a drop takes the session out of the slot, which was its own. -/
theorem dropEnds {i : Nat} {s : Life} (hs : w.sessions[i]? = some s) (hFate : s.fate ≠ .dropped) :
    Apart (World.change { w with current := none, log := w.log ++ (w.current.map fun k =>
      Credit.uninstalled k i).toList } i fun s => { s with fate := .dropped }) := by
  have hCurrent : w.current = some i := h.installed i s hs hFate
  constructor
  · intro j r hr
    obtain ⟨rfl, r', hr', rfl⟩ | hOld := mem_change hr
    · exact ⟨(h.own i r' hr').posting, (h.own i r' hr').posted, (h.own i r' hr').evaluating⟩
    · exact h.own j r hOld
  · intro j r hr hAlive
    rw [getElem?_change] at hr
    split at hr
    · obtain ⟨r', -, rfl⟩ := Option.map_eq_some_iff.mp hr
      exact absurd rfl hAlive
    · next hNe =>
      have hOther : w.current = some j := h.installed j r hr hAlive
      rw [hCurrent] at hOther
      exact absurd (Option.some.inj hOther) hNe
  · exact fun _ _ _ _ => .inl rfl
  · intro c hc
    obtain hc | hc := List.mem_append.mp hc
    · exact h.log c hc
    · rw [hCurrent] at hc
      obtain rfl := List.mem_singleton.mp hc
      rfl

/-- The job is taken out of the slot of its own session, where its own worker has found it. -/
theorem fetch {i : Nat} {s : Life} {j : Job} (hs : w.sessions[i]? = some s) (hRuns : s.worker ≠ .exited)
    (hPosted : s.posted = some (.job j)) :
    Apart (((w.change i fun s => { s with posted := none }).change i fun s =>
      { s with worker := .evaluating j }).credit (.fetched j i)) := by
  have hOwn := h.own i s hs
  have hOwner : j.owner = i := hOwn.posted j hPosted
  have hTaken : Apart (w.change i fun s => { s with posted := none }) :=
    h.change hs ⟨hOwn.posting, nofun, hOwn.evaluating⟩ (fun hf => hf) fun hw => hw
  have hFetched : Credit.Isolated (.fetched j i) := hOwner
  refine Apart.credit ?_ hFetched
  refine hTaken.change (change_self hs _) ⟨hOwn.posting, nofun, fun j' hj => ?_⟩ (fun hf => hf) fun _ => hRuns
  obtain rfl := Worker.evaluating.inj hj
  exact hOwner

/-- The job a worker has finished is one of its own session. -/
theorem commandDone {i : Nat} {s : Life} {j : Job} (hs : w.sessions[i]? = some s)
    (hWorker : s.worker = .evaluating j) :
    Apart (((w.change i fun s => { s with done := true }).change i fun s =>
      { s with worker := .fetching }).credit (.completed j i)) := by
  have hOwn := h.own i s hs
  have hDone : Apart (w.change i fun s => { s with done := true }) :=
    h.change hs ⟨hOwn.posting, hOwn.posted, hOwn.evaluating⟩ (fun hf => hf) fun hw => hw
  have hCompleted : Credit.Isolated (.completed j i) := hOwn.evaluating j hWorker
  refine Apart.credit ?_ hCompleted
  refine hDone.change (change_self hs _) ⟨hOwn.posting, hOwn.posted, nofun⟩ (fun hf => hf) fun _ => ?_
  rw [hWorker]
  exact nofun

end Apart

theorem start_apart : Apart .start := by
  have hNone : ∀ (i : Nat) (s : Life), World.start.sessions[i]? ≠ some s := by
    intro i s
    show ([] : List Life)[i]? ≠ some s
    rw [List.getElem?_nil]
    exact nofun
  exact ⟨fun i s hs => absurd hs (hNone i s), fun i s hs => absurd hs (hNone i s),
    fun i s hs => absurd hs (hNone i s), fun c hc => absurd hc List.not_mem_nil⟩

theorem Apart.step {w w' : World} {e : Event} (h : Apart w) (hLonely : Lonely w e)
    (hAct : w.act e = some w') : Apart w' := by
  cases e with
  | new =>
    simp only [World.act] at hAct
    split at hAct
    · next hCurrent =>
      obtain rfl := Option.some.inj hAct
      exact h.new (hLonely rfl) hCurrent
    · cases hAct
  | clear i source =>
    simp only [World.act] at hAct
    split at hAct
    · next hs =>
      obtain rfl := Option.some.inj hAct
      have hOwn := h.own i _ hs
      refine h.change hs ⟨fun j hj => ?_, hOwn.posted, hOwn.evaluating⟩ (fun hf => hf) fun hw => hw
      obtain rfl := Sender.posting.inj hj
      rfl
    · cases hAct
  | post i =>
    simp only [World.act] at hAct
    split at hAct
    · next worker j posted done fate hs =>
      obtain rfl := Option.some.inj hAct
      have hOwn := h.own i _ hs
      refine h.change hs ⟨nofun, fun j' hj => ?_, hOwn.evaluating⟩ (fun hf => hf) fun hw => hw
      obtain rfl := Posted.job.inj (Option.some.inj hj)
      exact hOwn.posting j rfl
    · cases hAct
  | answer i =>
    simp only [World.act] at hAct
    split at hAct
    · next hs =>
      obtain rfl := Option.some.inj hAct
      have hOwn := h.own i _ hs
      exact h.change hs ⟨nofun, hOwn.posted, hOwn.evaluating⟩ (fun hf => hf) fun hw => hw
    · cases hAct
  | timeout i =>
    simp only [World.act] at hAct
    split at hAct
    · next hs =>
      obtain rfl := Option.some.inj hAct
      have hOwn := h.own i _ hs
      exact h.change hs ⟨hOwn.posting, hOwn.posted, hOwn.evaluating⟩ (fun _ => nofun) fun hw => hw
    · cases hAct
  | fetch i =>
    simp only [World.act] at hAct
    split at hAct
    · next hs _ =>
      obtain rfl := Option.some.inj hAct
      have hOwn := h.own i _ hs
      exact h.change hs ⟨hOwn.posting, hOwn.posted, nofun⟩ (fun hf => hf) fun hw => absurd rfl hw
    · next sender posted done fate k hs hCurrent =>
      -- the slot the worker looks into is that of its own session
      have hSame : k = i := h.current_eq hs nofun hCurrent
      subst hSame
      rw [hs] at hAct
      split at hAct
      · next worker' sender' j done' fate' hPosted =>
        obtain rfl := Option.some.inj hAct
        have hSlot := congrArg Life.posted (Option.some.inj hPosted)
        exact h.fetch hs nofun hSlot
      · obtain rfl := Option.some.inj hAct
        have hOwn := h.own k _ hs
        have hTaken : Apart (w.change k fun s => { s with posted := none }) :=
          h.change hs ⟨hOwn.posting, nofun, hOwn.evaluating⟩ (fun hf => hf) fun hw => hw
        exact hTaken.change (change_self hs _) ⟨hOwn.posting, nofun, nofun⟩ (fun hf => hf)
          fun hw => absurd rfl hw
      · cases hAct
    · cases hAct
  | write i =>
    simp only [World.act] at hAct
    split at hAct
    · next j sender posted done fate k hs hCurrent =>
      obtain rfl := Option.some.inj hAct
      have hSame : k = i := h.current_eq hs nofun hCurrent
      subst hSame
      exact h.credit ((h.own k _ hs).evaluating j rfl)
    · obtain rfl := Option.some.inj hAct
      exact h
    · cases hAct
  | commandDone i =>
    simp only [World.act] at hAct
    split at hAct
    · next j sender posted done fate k hs hCurrent =>
      obtain rfl := Option.some.inj hAct
      have hSame : k = i := h.current_eq hs nofun hCurrent
      subst hSame
      exact h.commandDone hs rfl
    · next j sender posted done fate hs hCurrent =>
      obtain rfl := Option.some.inj hAct
      have hOwn := h.own i _ hs
      exact h.change hs ⟨hOwn.posting, hOwn.posted, nofun⟩ (fun hf => hf) fun _ => nofun
    · cases hAct
  | panics i =>
    simp only [World.act] at hAct
    split at hAct
    · next hs =>
      obtain rfl := Option.some.inj hAct
      have hOwn := h.own i _ hs
      exact h.change hs ⟨hOwn.posting, hOwn.posted, nofun⟩ (fun hf => hf) fun hw => absurd rfl hw
    · cases hAct
  | dropStarts i =>
    simp only [World.act] at hAct
    split at hAct
    · next hs =>
      obtain rfl := Option.some.inj hAct
      have hOwn := h.own i _ hs
      exact h.change hs ⟨hOwn.posting, hOwn.posted, hOwn.evaluating⟩ (fun _ => nofun) fun hw => hw
    · next hs =>
      obtain rfl := Option.some.inj hAct
      have hOwn := h.own i _ hs
      exact h.change hs ⟨hOwn.posting, hOwn.posted, hOwn.evaluating⟩ (fun _ => nofun) fun hw => hw
    · cases hAct
  | postExit i =>
    simp only [World.act] at hAct
    split at hAct
    · next hs =>
      obtain rfl := Option.some.inj hAct
      have hOwn := h.own i _ hs
      exact h.change hs ⟨nofun, nofun, hOwn.evaluating⟩ (fun hf => hf) fun hw => hw
    · cases hAct
  | dropEnds i =>
    simp only [World.act] at hAct
    split at hAct
    · next hs =>
      split at hAct
      · obtain rfl := Option.some.inj hAct
        exact h.dropEnds hs nofun
      · cases hAct
    · cases hAct

def LonelyHappens (w : World) (e : Event) (w' : World) : Prop := Lonely w e ∧ Happens w e w'

/-- A session that is dropped when its worker is through, and the next one. -/
def inTurn : List Event :=
  [.new, .clear 0 "1 .", .post 0, .fetch 0, .write 0, .commandDone 0, .answer 0, .dropStarts 0,
    .postExit 0, .fetch 0, .dropEnds 0, .new]

def inTurnEnd : World :=
  ⟨some 1, [⟨.exited, .stopped, none, false, .dropped⟩, .new],
    [.fetched ⟨0, "1 ."⟩ 0, .wrote ⟨0, "1 ."⟩ 0, .completed ⟨0, "1 ."⟩ 0, .uninstalled 0 0]⟩

/-- A session that dies by its timeout and is dropped with its worker inside the VM; the worker comes
back when the next session has a command under way. -/
def stale : List Event :=
  [.new, .clear 0 "begin again", .post 0, .fetch 0, .timeout 0, .dropStarts 0, .dropEnds 0, .new,
    .clear 1 "1 .", .post 1, .fetch 1, .commandDone 0]

end FactorForth.Session
