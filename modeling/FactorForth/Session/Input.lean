import FactorForth.Library.Runs
import Mathlib.Logic.Function.Iterate
import Mathlib.Tactic.Common

/-! The console input of a session: any threads feed bytes into a queue and may close it, and the thread
of the VM takes them out for KEY and ACCEPT, asleep on a condition variable while there are none. -/

namespace FactorForth.Session
open FactorForth.Library

/-- A call of `nf_rt_read_char`, or of `nf_rt_read_line` with its `max`. -/
inductive Request where
  | readChar
  | readLine (max : Int)
deriving DecidableEq, Repr

namespace Request

/-- How many bytes a read gives at most. -/
def limit : Request → Nat
  | readChar => 1
  | readLine max => max.toNat

/-- A line ends at a newline, which is taken but not stored. -/
def endsAt (r : Request) (b : UInt8) : Bool :=
  match r with
  | readChar => false
  | readLine _ => b == 10

end Request

inductive Ended where
  | full
  | newline
  | eof
deriving DecidableEq, Repr

/-- A read that has returned. `nf_rt_read_char` gives its one byte, and -1 where there is none. -/
structure Answer where
  request : Request
  bytes : List UInt8
  ended : Ended
deriving DecidableEq, Repr

/-- Where the reading thread stands, with the bytes of the read so far. It holds the lock of the queue
from finding it empty and not closed until it is asleep. -/
inductive Reader where
  | idle
  | reading (r : Request) (got : List UInt8)
  | resolved (r : Request) (got : List UInt8)
  | asleep (r : Request) (got : List UInt8) (woken : Bool)
deriving DecidableEq, Repr

def Reader.notified : Reader → Reader
  | .asleep r got _ => .asleep r got true
  | reader => reader

/-- The shared input of a session and its reader. `notifies` counts the calls of `close_input` that have
stored the flag and not yet notified; `fed` and `answers` keep what was fed and read, the oldest first. -/
structure Console where
  queue : List UInt8
  closed : Bool
  notifies : Nat
  reader : Reader
  fed : List UInt8
  answers : List Answer
deriving DecidableEq, Repr

/-- Test mode starts with its whole input and closed, the other modes empty and open. -/
def Console.start (input : List UInt8) (closed : Bool) : Console := ⟨input, closed, 0, .idle, input, []⟩

inductive Console.Action where
  | feed (bytes : List UInt8)
  | closeStore
  | closeNotify
  | call (r : Request)
  | look
  | sleep
  /-- Also a wakeup that nobody asked for. -/
  | wake
deriving DecidableEq, Repr

namespace Console

def answer (s : Console) (r : Request) (bytes : List UInt8) (ended : Ended) : Console :=
  { s with reader := .idle, answers := s.answers ++ [⟨r, bytes, ended⟩] }

/-- The reader has the lock and takes a byte. -/
def take (s : Console) (r : Request) (got : List UInt8) (b : UInt8) (queue : List UInt8) : Console :=
  if r.endsAt b then { s with queue := queue }.answer r got .newline
  else if (got ++ [b]).length < r.limit then
    { s with queue := queue, reader := .reading r (got ++ [b]) }
  else { s with queue := queue }.answer r (got ++ [b]) .full

def act (s : Console) : Action → Option Console
  | .feed bytes =>
    match s.reader with
    | .resolved _ _ => none
    | reader =>
      some { s with queue := s.queue ++ bytes, reader := reader.notified, fed := s.fed ++ bytes }
  | .closeStore => some { s with closed := true, notifies := s.notifies + 1 }
  | .closeNotify =>
    -- neither the store nor the notify takes the lock of the queue
    if s.notifies = 0 then none
    else some { s with notifies := s.notifies - 1, reader := s.reader.notified }
  | .call r =>
    match s.reader with
    | .idle => some (if r.limit = 0 then s.answer r [] .full else { s with reader := .reading r [] })
    | _ => none
  | .look =>
    match s.reader, s.queue with
    | .reading r got, b :: queue => some (s.take r got b queue)
    | .reading r got, [] =>
      some (if s.closed then s.answer r got .eof else { s with reader := .resolved r got })
    | _, _ => none
  | .sleep =>
    match s.reader with
    | .resolved r got => some { s with reader := .asleep r got false }
    | _ => none
  | .wake =>
    match s.reader with
    | .asleep r got _ => some { s with reader := .reading r got }
    | _ => none

/-- A step that is not possible changes nothing. -/
def step (s : Console) (a : Action) : Console := (s.act a).getD s

/-- The step that the reader takes next by itself. -/
def own (s : Console) : Console :=
  match s.reader with
  | .reading _ _ => s.step .look
  | .resolved _ _ => s.step .sleep
  | .asleep _ _ true => s.step .wake
  | _ => s

end Console

/-! What the reads of an input are, and what is left. -/

def serveOne (r : Request) (input : List UInt8) : Answer × List UInt8 :=
  let line := input.takeWhile fun b => !r.endsAt b
  if r.limit ≤ line.length then (⟨r, line.take r.limit, .full⟩, input.drop r.limit)
  else match input.drop line.length with
    | [] => (⟨r, line, .eof⟩, [])
    | _ :: rest => (⟨r, line, .newline⟩, rest)

def serve : List Request → List UInt8 → List Answer × List UInt8
  | [], input => ([], input)
  | r :: rs, input =>
    let one := serveOne r input
    let more := serve rs one.2
    (one.1 :: more.1, more.2)

theorem serve_append (rs qs : List Request) (input : List UInt8) :
    serve (rs ++ qs) input =
      ((serve rs input).1 ++ (serve qs (serve rs input).2).1, (serve qs (serve rs input).2).2) := by
  induction rs generalizing input with
  | nil => rfl
  | cons r rs ih =>
    rw [List.cons_append, serve, serve]
    dsimp only
    rw [ih]
    rfl

/-- The part of a read that has no end in it. -/
def Unended (r : Request) (got : List UInt8) : Prop := ∀ b ∈ got, r.endsAt b = false

theorem takeWhile_unended {r : Request} {got : List UInt8} (h : Unended r got) (rest : List UInt8) :
    (got ++ rest).takeWhile (fun b => !r.endsAt b) = got ++ rest.takeWhile fun b => !r.endsAt b :=
  List.takeWhile_append_of_pos fun b hb => by rw [h b hb]; rfl

theorem serveOne_full {r : Request} {got : List UInt8} (h : Unended r got) (hLength : got.length = r.limit)
    (rest : List UInt8) : serveOne r (got ++ rest) = (⟨r, got, .full⟩, rest) := by
  have hLimit : r.limit ≤ (got ++ rest.takeWhile fun b => !r.endsAt b).length := by
    rw [List.length_append, hLength]
    exact Nat.le_add_right _ _
  rw [serveOne, takeWhile_unended h, if_pos hLimit, ← hLength, List.take_left, List.drop_left]

theorem serveOne_newline {r : Request} {got : List UInt8} (h : Unended r got)
    (hLength : got.length < r.limit) {b : UInt8} (hb : r.endsAt b = true) (rest : List UInt8) :
    serveOne r (got ++ b :: rest) = (⟨r, got, .newline⟩, rest) := by
  have hLine : (got ++ b :: rest).takeWhile (fun b => !r.endsAt b) = got := by
    rw [takeWhile_unended h, List.takeWhile_cons_of_neg (by simp [hb]), List.append_nil]
  rw [serveOne, hLine, if_neg (Nat.not_le.mpr hLength), List.drop_left]

theorem serveOne_eof {r : Request} {got : List UInt8} (h : Unended r got)
    (hLength : got.length < r.limit) : serveOne r got = (⟨r, got, .eof⟩, []) := by
  have hLine : got.takeWhile (fun b => !r.endsAt b) = got := by
    simpa using takeWhile_unended h []
  rw [serveOne, hLine, if_neg (Nat.not_le.mpr hLength), List.drop_length]

namespace Console

/-! What is read. -/

/-- The bytes that the read under way has taken. -/
def held (s : Console) : List UInt8 :=
  match s.reader with
  | .idle => []
  | .reading _ got | .resolved _ got | .asleep _ got _ => got

/-- The read under way has not met an end. -/
def Midway (s : Console) : Prop :=
  match s.reader with
  | .idle => True
  | .reading r got | .resolved r got | .asleep r got _ => Unended r got ∧ got.length < r.limit

/-- Whatever will still be fed, the reads that have returned are those of the whole input. -/
structure Serving (s : Console) : Prop where
  midway : s.Midway
  served : ∀ rest, (s.closed = true → rest = []) →
    serve (s.answers.map Answer.request) (s.fed ++ rest) = (s.answers, s.held ++ s.queue ++ rest)

theorem serving_start (input : List UInt8) (closed : Bool) : (start input closed).Serving :=
  ⟨trivial, fun _ _ => rfl⟩

variable {s : Console}

section Serving

/-- A read that returns with the bytes that it has taken out of the queue. -/
theorem Serving.answer (h : s.Serving) (queue : List UInt8) {r : Request} {bytes : List UInt8} {ended : Ended}
    (hRead : ∀ rest, (s.closed = true → rest = []) →
      serveOne r (s.held ++ s.queue ++ rest) = (⟨r, bytes, ended⟩, queue ++ rest)) :
    Serving ({ s with queue := queue }.answer r bytes ended) := by
  refine ⟨trivial, fun rest hRest => ?_⟩
  show serve (List.map Answer.request (s.answers ++ [(⟨r, bytes, ended⟩ : Answer)])) (s.fed ++ rest) =
    (s.answers ++ [⟨r, bytes, ended⟩], [] ++ queue ++ rest)
  rw [List.map_append, serve_append, h.served rest hRest]
  simp only [List.map_cons, List.map_nil, serve, hRead rest hRest, List.nil_append]

/-- Nothing is read when the reader only changes where it stands. -/
theorem Serving.moves (h : s.Serving) (notifies : Nat) {reader : Reader}
    (hMidway : Midway { s with reader := reader }) (hHeld : held { s with reader := reader } = s.held) :
    Serving { s with notifies := notifies, reader := reader } := by
  refine ⟨hMidway, fun rest hRest => ?_⟩
  rw [h.served rest hRest, ← hHeld]
  rfl

theorem Serving.notified (h : s.Serving) (notifies : Nat) :
    Serving { s with notifies := notifies, reader := s.reader.notified } := by
  have hMidway := h.midway
  refine h.moves notifies ?_ ?_
  · unfold Midway at hMidway ⊢
    cases hReader : s.reader
    all_goals
      rw [hReader] at hMidway
      exact hMidway
  · unfold held
    cases s.reader <;> rfl

theorem Serving.feed (h : s.Serving) (hOpen : s.closed = false) (bytes : List UInt8) :
    Serving { s with queue := s.queue ++ bytes, fed := s.fed ++ bytes } := by
  refine ⟨h.midway, fun rest _ => ?_⟩
  have hServed := h.served (bytes ++ rest) fun hClosed => by simp [hOpen] at hClosed
  rw [← List.append_assoc, ← List.append_assoc] at hServed
  rw [hServed, ← List.append_assoc]
  rfl

theorem Serving.take (h : s.Serving) {r : Request} {got : List UInt8} (hReader : s.reader = .reading r got)
    {b : UInt8} {queue : List UInt8} (hQueue : s.queue = b :: queue) : (s.take r got b queue).Serving := by
  have hMidway := h.midway
  unfold Midway at hMidway
  rw [hReader] at hMidway
  obtain ⟨hUnended, hLength⟩ := hMidway
  have hHeld : s.held = got := by
    unfold held
    rw [hReader]
  unfold Console.take
  split
  · rename_i hb
    refine h.answer queue fun rest _ => ?_
    rw [hHeld, hQueue, List.append_assoc]
    exact serveOne_newline hUnended hLength hb _
  · rename_i hb
    have hUnended' : Unended r (got ++ [b]) := by
      intro c hc
      rcases List.mem_append.mp hc with hc | hc
      · exact hUnended c hc
      · rw [List.mem_singleton.mp hc]
        exact eq_false_of_ne_true hb
    have hTaken : ∀ rest, s.held ++ s.queue ++ rest = got ++ [b] ++ (queue ++ rest) := by
      intro rest
      rw [hHeld, hQueue]
      simp
    split
    · rename_i hMore
      refine ⟨⟨hUnended', hMore⟩, fun rest hRest => ?_⟩
      show serve (s.answers.map Answer.request) (s.fed ++ rest) =
        (s.answers, got ++ [b] ++ queue ++ rest)
      rw [h.served rest hRest, hTaken, List.append_assoc (got ++ [b])]
    · rename_i hFull
      refine h.answer queue fun rest _ => ?_
      rw [hTaken]
      refine serveOne_full hUnended' (Nat.le_antisymm ?_ (Nat.not_lt.mp hFull)) _
      rw [List.length_append, List.length_singleton]
      exact hLength

theorem Serving.look (h : s.Serving) {t : Console} (hAct : s.act .look = some t) : t.Serving := by
  simp only [act] at hAct
  split at hAct
  · rename_i r got b queue hReader hQueue
    obtain rfl := Option.some.inj hAct
    exact h.take hReader hQueue
  · rename_i r got hReader hQueue
    have hMidway := h.midway
    unfold Midway at hMidway
    rw [hReader] at hMidway
    have hHeld : s.held = got := by
      unfold held
      rw [hReader]
    obtain rfl := Option.some.inj hAct
    split
    · rename_i hClosed
      refine h.answer s.queue fun rest hRest => ?_
      rw [hRest hClosed, hHeld, hQueue, List.append_nil, List.append_nil, List.append_nil]
      exact serveOne_eof hMidway.1 hMidway.2
    · exact h.moves s.notifies hMidway hHeld.symm
  · cases hAct

/-- The step lemma: what is fed comes in front of all that is still to be fed, and a read takes its bytes
from the front of the queue. -/
theorem Serving.step (h : s.Serving) {a : Action} (hOpen : ∀ bytes, a = .feed bytes → s.closed = false) :
    (s.step a).Serving := by
  unfold Console.step
  cases hAct : s.act a with
  | none => exact h
  | some t =>
    cases a with
    | feed bytes =>
      simp only [act] at hAct
      split at hAct
      · cases hAct
      · obtain rfl := Option.some.inj hAct
        exact (h.feed (hOpen bytes rfl) bytes).notified s.notifies
    | closeStore =>
      obtain rfl := Option.some.inj hAct
      refine ⟨h.midway, fun rest hRest => ?_⟩
      obtain rfl := hRest rfl
      exact h.served [] fun _ => rfl
    | closeNotify =>
      simp only [act] at hAct
      split at hAct
      · cases hAct
      · obtain rfl := Option.some.inj hAct
        exact h.notified _
    | call r =>
      simp only [act] at hAct
      split at hAct
      · rename_i hReader
        have hHeld : s.held = [] := by
          unfold held
          rw [hReader]
        obtain rfl := Option.some.inj hAct
        split
        · rename_i hLimit
          refine h.answer s.queue fun rest _ => ?_
          rw [hHeld]
          have hNone : Unended r [] := fun b hb => absurd hb List.not_mem_nil
          exact serveOne_full hNone hLimit.symm _
        · rename_i hLimit
          exact h.moves s.notifies
            ⟨fun b hb => absurd hb List.not_mem_nil, Nat.pos_of_ne_zero hLimit⟩ hHeld.symm
      · cases hAct
    | look => exact h.look hAct
    | sleep | wake =>
      simp only [act] at hAct
      split at hAct
      · rename_i hReader
        have hMidway := h.midway
        unfold Midway at hMidway
        rw [hReader] at hMidway
        obtain rfl := Option.some.inj hAct
        refine h.moves s.notifies hMidway ?_
        unfold held
        rw [hReader]
      · cases hAct

end Serving

/-- The input and the reads of a run, after its first `n` actions. -/
def run (input : List UInt8) (closed : Bool) (actions : List Action) (n : Nat) : Console :=
  stateAt step (start input closed) actions n

/-- Nothing is fed behind a `close_input`. -/
def FedOpen (input : List UInt8) (closed : Bool) (actions : List Action) : Prop :=
  ∀ n bytes, actions[n]? = some (.feed bytes) → (run input closed actions n).closed = false

/-- Whatever the threads do when, KEY and ACCEPT get the bytes that were fed, in order and once each, as a
reader of the whole input would: ACCEPT up to its newline or its limit, and the end of input where the
input ends. -/
theorem console_serves {input : List UInt8} {closed : Bool} {actions : List Action}
    (hFed : FedOpen input closed actions) (n : Nat) (rest : List UInt8)
    (hRest : (run input closed actions n).closed = true → rest = []) :
    serve ((run input closed actions n).answers.map Answer.request)
        ((run input closed actions n).fed ++ rest) =
      ((run input closed actions n).answers,
        (run input closed actions n).held ++ (run input closed actions n).queue ++ rest) := by
  have hServing : (run input closed actions n).Serving := by
    have hStep (s : Console) (a : Action) (h : s.Serving)
        (hOpen : ∀ bytes, a = .feed bytes → s.closed = false) : (s.step a).Serving := h.step hOpen
    refine run_keeps hStep (serving_start input closed) ?_ n
    rintro k _ hk bytes rfl
    exact hFed k bytes hk
  exact hServing.served rest hRest

theorem console_serves_line :
    serve [.readLine 5] [104, 105, 10, 120] = ([⟨.readLine 5, [104, 105], .newline⟩], [120]) := by
  have hServed (hFed : FedOpen [] false [.call (.readLine 5), .look, .sleep, .feed [104, 105, 10, 120], .wake,
      .look, .look, .look]) := console_serves hFed 8 [] (fun _ => rfl)
  refine hServed ?_
  intro n bytes h
  rcases n with _ | _ | _ | _ | _ | _ | _ | _ | n
  case succ.succ.succ.zero => rfl
  all_goals cases h

/-! Who is woken. -/

/-- The reader has found the queue empty and not closed, and is not woken. -/
def Waiting (s : Console) : Prop :=
  match s.reader with
  | .resolved _ _ | .asleep _ _ false => True
  | _ => False

/-- The last notify comes when the reader has looked and does not sleep yet. -/
def InGap (s : Console) : Prop :=
  match s.reader with
  | .resolved _ _ => s.notifies = 1
  | _ => False

/-- A reader that waits has nothing to read, and one that waits behind a close is about to be notified. -/
structure Wakes (s : Console) : Prop where
  closing : 0 < s.notifies → s.closed = true
  waiting : s.Waiting → s.queue = [] ∧ (s.closed = true → 0 < s.notifies)

/-- A reader does not sleep over bytes, and once the input is closed its read ends by its own steps. -/
structure Answerable (s : Console) : Prop where
  woken : ∀ r got, s.reader = .asleep r got false → s.queue = []
  ends : s.closed = true → s.notifies = 0 → s.reader ≠ .idle →
    ∃ k, (own^[k] s).answers.length = s.answers.length + 1

theorem reading_ends {queue : List UInt8} {r : Request} {got : List UInt8} {s : Console}
    (hReader : s.reader = .reading r got) (hQueue : s.queue = queue) (hClosed : s.closed = true) :
    ∃ k, (own^[k] s).answers.length = s.answers.length + 1 := by
  induction queue generalizing s got with
  | nil =>
    refine ⟨1, ?_⟩
    rw [Function.iterate_one, own, hReader]
    simp [step, act, hReader, hQueue, hClosed, answer]
  | cons b queue ih =>
    have hOwn : own s = s.take r got b queue := by
      rw [own, hReader]
      simp [step, act, hReader, hQueue]
    by_cases hMore : r.endsAt b = false ∧ (got ++ [b]).length < r.limit
    · have hTake : s.take r got b queue = { s with queue := queue, reader := .reading r (got ++ [b]) } := by
        rw [take, if_neg (by simp [hMore.1]), if_pos hMore.2]
      obtain ⟨k, hk⟩ := ih (s := s.take r got b queue) (by rw [hTake]) (by rw [hTake])
        (by rw [hTake]; exact hClosed)
      refine ⟨k + 1, ?_⟩
      rw [Function.iterate_succ_apply, hOwn, hk, hTake]
    · refine ⟨1, ?_⟩
      rw [Function.iterate_one, hOwn, take]
      split_ifs with hEnd hLess
      · simp [answer]
      · exact absurd ⟨eq_false_of_ne_true hEnd, hLess⟩ hMore
      · simp [answer]

theorem Wakes.answerable (h : s.Wakes) : s.Answerable := by
  refine ⟨fun r got hReader => (h.waiting ?_).1, fun hClosed hNotified hBusy => ?_⟩
  · unfold Waiting
    rw [hReader]
    trivial
  · have hNot : ¬ s.Waiting := fun hWaiting => by
      have hPos := (h.waiting hWaiting).2 hClosed
      omega
    unfold Waiting at hNot
    cases hReader : s.reader with
    | idle => exact absurd hReader hBusy
    | reading r got => exact reading_ends hReader rfl hClosed
    | resolved r got =>
      rw [hReader] at hNot
      exact absurd trivial hNot
    | asleep r got woken =>
      rw [hReader] at hNot
      cases woken with
      | false => exact absurd trivial hNot
      | true =>
        have hOwn : own s = { s with reader := .reading r got } := by
          rw [own, hReader]
          simp [step, act, hReader]
        have hReading : (own s).reader = .reading r got := by rw [hOwn]
        obtain ⟨k, hk⟩ := reading_ends hReading rfl (by rw [hOwn]; exact hClosed)
        refine ⟨k + 1, ?_⟩
        rw [Function.iterate_succ_apply, hk, hOwn]

theorem not_waiting_notified {s : Console} (h : ∀ r got, s.reader ≠ .resolved r got) (queue fed : List UInt8)
    (notifies : Nat) : ¬ Waiting
      { s with queue := queue, fed := fed, notifies := notifies, reader := s.reader.notified } := by
  unfold Waiting
  cases hReader : s.reader with
  | resolved r got => exact absurd hReader (h r got)
  | idle | reading | asleep => exact id

theorem not_waiting_take {r : Request} {got : List UInt8} {b : UInt8} {queue : List UInt8} :
    ¬ (s.take r got b queue).Waiting := by
  unfold take
  split_ifs <;> exact id

theorem take_flags {r : Request} {got : List UInt8} {b : UInt8} {queue : List UInt8} :
    (s.take r got b queue).closed = s.closed ∧ (s.take r got b queue).notifies = s.notifies := by
  unfold take
  split_ifs <;> exact ⟨rfl, rfl⟩

theorem closing_step (h : 0 < s.notifies → s.closed = true) (a : Action) :
    0 < (s.step a).notifies → (s.step a).closed = true := by
  unfold Console.step
  cases hAct : s.act a with
  | none => exact h
  | some t =>
    cases a with
    | closeStore =>
      obtain rfl := Option.some.inj hAct
      exact fun _ => rfl
    | closeNotify =>
      simp only [act] at hAct
      split at hAct
      · cases hAct
      · rename_i hSome
        obtain rfl := Option.some.inj hAct
        exact fun _ => h (Nat.pos_of_ne_zero hSome)
    | look =>
      simp only [act] at hAct
      split at hAct
      · obtain rfl := Option.some.inj hAct
        rw [Option.getD_some, take_flags.1, take_flags.2]
        exact h
      · obtain rfl := Option.some.inj hAct
        split <;> exact h
      · cases hAct
    | call r =>
      simp only [act] at hAct
      split at hAct
      · obtain rfl := Option.some.inj hAct
        split <;> exact h
      · cases hAct
    | feed | sleep | wake =>
      simp only [act] at hAct
      split at hAct
      all_goals cases hAct
      all_goals exact h

/-- The step lemma: who waits is notified, unless the last notify falls in the gap. -/
theorem Wakes.step (h : s.Wakes) {a : Action} (hGap : a = .closeNotify → ¬ s.InGap) : (s.step a).Wakes := by
  refine ⟨closing_step h.closing a, ?_⟩
  unfold Console.step
  cases hAct : s.act a with
  | none => exact h.waiting
  | some t =>
    rw [Option.getD_some]
    cases a with
    | feed bytes =>
      simp only [act] at hAct
      split at hAct
      · cases hAct
      · rename_i hNone
        obtain rfl := Option.some.inj hAct
        exact fun hWaiting => absurd hWaiting (not_waiting_notified hNone _ _ s.notifies)
    | closeStore =>
      obtain rfl := Option.some.inj hAct
      exact fun hWaiting => ⟨(h.waiting hWaiting).1, fun _ => Nat.succ_pos _⟩
    | closeNotify =>
      simp only [act] at hAct
      split at hAct
      · cases hAct
      · obtain rfl := Option.some.inj hAct
        intro hWaiting
        by_cases hResolved : ∃ r got, s.reader = .resolved r got
        · obtain ⟨r, got, hReader⟩ := hResolved
          have hWas : s.Waiting := by
            unfold Waiting
            rw [hReader]
            trivial
          have hOther : s.notifies ≠ 1 := by
            have hNot := hGap rfl
            unfold InGap at hNot
            rwa [hReader] at hNot
          refine ⟨(h.waiting hWas).1, fun _ => ?_⟩
          show 0 < s.notifies - 1
          omega
        · exact absurd hWaiting
            (not_waiting_notified (fun r got hReader => hResolved ⟨r, got, hReader⟩) s.queue s.fed _)
    | call r =>
      simp only [act] at hAct
      split at hAct
      · obtain rfl := Option.some.inj hAct
        split <;> exact False.elim
      · cases hAct
    | look =>
      simp only [act] at hAct
      split at hAct
      · obtain rfl := Option.some.inj hAct
        exact fun hWaiting => absurd hWaiting not_waiting_take
      · rename_i r got hReader hQueue
        obtain rfl := Option.some.inj hAct
        split
        · exact False.elim
        · rename_i hOpen
          exact fun _ => ⟨hQueue, fun hClosed => absurd hClosed hOpen⟩
      · cases hAct
    | sleep =>
      simp only [act] at hAct
      split at hAct
      · rename_i r got hReader
        have hWas : s.Waiting := by
          unfold Waiting
          rw [hReader]
          trivial
        obtain rfl := Option.some.inj hAct
        exact fun _ => h.waiting hWas
      · cases hAct
    | wake =>
      simp only [act] at hAct
      split at hAct
      · obtain rfl := Option.some.inj hAct
        exact False.elim
      · cases hAct

/-- The reader sleeps and by itself never wakes: a notify in the gap is lost. -/
theorem lost_in_gap (hClosing : 0 < s.notifies → s.closed = true) (hGap : s.InGap) :
    ¬ (s.step .closeNotify).Answerable := by
  unfold InGap at hGap
  cases hReader : s.reader with
  | resolved r got =>
    rw [hReader] at hGap
    have hStep : s.step .closeNotify = { s with notifies := 0 } := by
      simp [Console.step, act, hGap, hReader, Reader.notified]
    intro hAnswerable
    rw [hStep] at hAnswerable
    have hClosed := hClosing (hGap ▸ Nat.one_pos)
    obtain ⟨k, hk⟩ := hAnswerable.ends hClosed rfl (by rw [hReader]; exact Reader.noConfusion)
    have hAsleep : ∀ k, (own^[k] { s with notifies := 0, reader := .asleep r got false }).answers = s.answers :=
      fun k => by rw [Function.iterate_fixed (f := own) rfl]
    cases k with
    | zero => exact absurd hk (Nat.ne_of_lt (Nat.lt_succ_self _))
    | succ k =>
      have hOwn : own { s with notifies := 0 } = { s with notifies := 0, reader := .asleep r got false } := by
        simp [own, Console.step, act, hReader]
      rw [Function.iterate_succ_apply, hOwn, hAsleep] at hk
      exact absurd hk (Nat.ne_of_lt (Nat.lt_succ_self _))
  | idle | reading | asleep =>
    rw [hReader] at hGap
    exact hGap.elim

theorem wakes_start (input : List UInt8) (closed : Bool) : (start input closed).Wakes :=
  ⟨fun h => absurd h (Nat.lt_irrefl 0), False.elim⟩

/-- No reader ever sleeps over bytes that were fed, and once the input is closed every read ends, exactly in
the runs where no `close_input` gives the last notify between the reader's look at the flag and its
sleep. -/
theorem reads_end_iff (input : List UInt8) (closed : Bool) (actions : List Action) :
    (∀ n, (run input closed actions n).Answerable) ↔
      ∀ n, actions[n]? = some .closeNotify → ¬ (run input closed actions n).InGap := by
  constructor
  · intro h n hn hGap
    have hStep (s : Console) (a : Action) (hInv : 0 < s.notifies → s.closed = true) (_ : True) :
        0 < (s.step a).notifies → (s.step a).closed = true := closing_step hInv a
    have hClosing : 0 < (run input closed actions n).notifies → (run input closed actions n).closed = true :=
      run_keeps hStep (wakes_start input closed).closing (fun _ _ _ => trivial) n
    have hNext := h (n + 1)
    unfold run at hNext
    rw [stateAt_succ _ _ hn] at hNext
    exact lost_in_gap hClosing hGap hNext
  · intro h n
    refine Wakes.answerable ?_
    have hStep (s : Console) (a : Action) (hInv : s.Wakes) (hOk : a = .closeNotify → ¬ s.InGap) :
        (s.step a).Wakes := hInv.step hOk
    refine run_keeps hStep (wakes_start input closed) ?_ n
    rintro k _ hk rfl
    exact h k hk

/-- A KEY that sleeps for good behind a `close_input`. -/
example : (run [] false [.call .readChar, .look, .closeStore, .closeNotify, .sleep] 5).reader =
    .asleep .readChar [] false := by decide

end Console

end FactorForth.Session
