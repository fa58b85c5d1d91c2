import FactorForth.Library.Runs
import Mathlib.Data.List.Perm.Basic
import Mathlib.Data.List.Count

/-! The event mailbox between the GUI thread and the language thread: a bounded channel, and a stash
for events that the consumer of the moment did not ask for. -/

namespace FactorForth.Gui
open FactorForth.Library

inductive IGuiEvent where
  | key (childId vkey scancode mods repeat_ : Int) (down : Bool) (timeMs : Int)
  | char (childId codepoint mods timeMs : Int)
  | mouse (childId x y op button mods wheelDelta wheelLines timeMs : Int)
  | focus (childId : Int) (gained : Bool)
  | resize (childId width height : Int)
  | close (childId : Int)
  | frameClose
  | themeChange
  | dpiChange (childId dpiX dpiY : Int)
  | menu (menuId itemId : Int)
  | tick (childId timeMs : Int)
  | evalBuffer (source : String)
  | forthRestart
  | forthInterrupt
  | replSubmit (childId : Int)
deriving DecidableEq, Repr

/-- The window an event is about. -/
def IGuiEvent.childId : IGuiEvent → Option Int
  | .key c _ _ _ _ _ _ => some c
  | .char c _ _ _ => some c
  | .mouse c _ _ _ _ _ _ _ _ => some c
  | .focus c _ => some c
  | .resize c _ _ => some c
  | .close c => some c
  | .dpiChange c _ _ => some c
  | .tick c _ => some c
  | .replSubmit c => some c
  | _ => none

def matchesFilter (ev : IGuiEvent) (filter : List Int) : Bool :=
  match ev with
  | .frameClose | .themeChange | .evalBuffer _ | .forthRestart | .forthInterrupt => true
  | .menu _ _ => true
  | .key c _ _ _ _ _ _ | .char c _ _ _ | .mouse c _ _ _ _ _ _ _ _ | .focus c _ | .resize c _ _
  | .close c | .dpiChange c _ _ | .replSubmit c | .tick c _ => filter.contains c

def matchesTarget (ev : IGuiEvent) (target : Int) : Bool :=
  match ev with
  | .frameClose => true
  | .themeChange | .menu _ _ | .evalBuffer _ | .forthRestart | .forthInterrupt | .replSubmit _
  | .dpiChange _ _ _ => false
  | .key c _ _ _ _ _ _ | .char c _ _ _ | .mouse c _ _ _ _ _ _ _ _ | .focus c _ | .resize c _ _
  | .close c | .tick c _ => c == target

/-- What a call of the consumer asks for; the filter is the one it saw when it was made. -/
inductive Request where
  | nextEvent (filter : List Int)
  | nextEventFor (target : Int)
deriving DecidableEq, Repr

def Request.takes : Request → IGuiEvent → Bool
  | .nextEvent [], _ => true
  | .nextEvent filter, ev => matchesFilter ev filter
  | .nextEventFor target, ev => matchesTarget ev target

/-- A call in progress: `scanned` when it is through with the stash and reads the channel. -/
structure Call where
  request : Request
  timeoutMs : Int
  scanned : Bool
deriving DecidableEq, Repr

structure Mailbox where
  queue : List IGuiEvent
  stash : List IGuiEvent
  filter : List Int
  call : Option Call
deriving DecidableEq, Repr

def capacity : Nat := 1024

/-- The mailbox with what went through it: the events pushed, and those returned with the request of
the call that got them, the oldest first. -/
structure Traffic extends Mailbox where
  pushed : List IGuiEvent
  returned : List (Request × IGuiEvent)
deriving DecidableEq, Repr

def Traffic.empty : Traffic := ⟨⟨[], [], [], none⟩, [], []⟩

inductive Action where
  | push (ev : IGuiEvent)
  | filterOnWindow (childId : Int)
  | unfilterWindow (childId : Int)
  | clearFilter
  | nextEvent (timeoutMs : Int)
  | nextEventFor (target timeoutMs : Int)
  /-- The scan of the stash, under its lock. -/
  | scan
  /-- One pass of the loop over the channel. -/
  | recv
  | timeout
deriving Repr

/-- Remove the first event that is asked for. -/
def takeFirst (p : IGuiEvent → Bool) : List IGuiEvent → Option (IGuiEvent × List IGuiEvent)
  | [] => none
  | ev :: evs => if p ev then some (ev, evs) else (takeFirst p evs).map fun r => (r.1, ev :: r.2)

def Traffic.answer (t : Traffic) (request : Request) (ev : IGuiEvent) : Traffic :=
  { t with call := none, returned := t.returned ++ [(request, ev)] }

/-- An action, where it can happen: the consumer makes one call at a time. -/
def Traffic.act (t : Traffic) : Action → Option Traffic
  | .push ev =>
    if t.queue.length < capacity then
      some { t with queue := t.queue ++ [ev], pushed := t.pushed ++ [ev] }
    else some t
  | .filterOnWindow c => some { t with filter := t.filter.insert c }
  | .unfilterWindow c => some { t with filter := t.filter.filter (· != c) }
  | .clearFilter => some { t with filter := [] }
  | .nextEvent timeoutMs =>
    match t.call with
    | none => some { t with call := some ⟨.nextEvent t.filter, timeoutMs, false⟩ }
    | some _ => none
  | .nextEventFor target timeoutMs =>
    match t.call with
    | none => some { t with call := some ⟨.nextEventFor target, timeoutMs, false⟩ }
    | some _ => none
  | .scan =>
    match t.call with
    | some ⟨request, timeoutMs, false⟩ =>
      match takeFirst request.takes t.stash with
      | some (ev, stash) => some (Traffic.answer { t with stash := stash } request ev)
      | none => some { t with call := some ⟨request, timeoutMs, true⟩ }
    | _ => none
  | .recv =>
    match t.call, t.queue with
    | some ⟨request, _, true⟩, ev :: queue =>
      if request.takes ev then some (Traffic.answer { t with queue := queue } request ev)
      else some { t with queue := queue, stash := t.stash ++ [ev] }
    | _, _ => none
  | .timeout =>
    match t.call with
    | some ⟨_, timeoutMs, true⟩ => if 0 ≤ timeoutMs then some { t with call := none } else none
    | _ => none

/-- Does a push find room in the channel? -/
def Traffic.roomFor (t : Traffic) : Action → Bool
  | .push _ => decide (t.queue.length < capacity)
  | _ => true

/-- An action of a run in which no push finds the channel full. -/
def Traffic.step (t : Traffic) (a : Action) : Option Traffic :=
  if t.roomFor a then t.act a else none

def Step (t : Traffic) (a : Action) (t' : Traffic) : Prop := t.step a = some t'

/-! Events that every request treats alike. -/

/-- A call for the window of the event may return it. -/
def IGuiEvent.targeted (ev : IGuiEvent) : Bool :=
  match ev.childId with
  | some c => matchesTarget ev c
  | none => matchesTarget ev 0

/-- What decides who gets an event: its window, and whether a call for the window may return it. -/
def IGuiEvent.lane (ev : IGuiEvent) : Option Int × Bool := (ev.childId, ev.targeted)

theorem takes_lane (request : Request) {a b : IGuiEvent} (h : a.lane = b.lane) :
    request.takes a = request.takes b := by
  obtain ⟨hChild, hTargeted⟩ := Prod.mk.inj h
  cases request with
  | nextEvent filter =>
    cases filter with
    | nil => rfl
    | cons c filter =>
      show matchesFilter a (c :: filter) = matchesFilter b (c :: filter)
      cases a <;> cases b <;> simp_all [IGuiEvent.childId, matchesFilter]
  | nextEventFor target =>
    show matchesTarget a target = matchesTarget b target
    cases a <;> cases b <;> simp_all [IGuiEvent.childId, IGuiEvent.targeted, matchesTarget]

theorem takeFirst_some {p : IGuiEvent → Bool} {evs rest : List IGuiEvent} {ev : IGuiEvent}
    (h : takeFirst p evs = some (ev, rest)) :
    ∃ pre post, evs = pre ++ ev :: post ∧ rest = pre ++ post ∧ p ev = true ∧
      ∀ x ∈ pre, p x = false := by
  induction evs generalizing rest with
  | nil => cases h
  | cons x evs ih =>
    rw [takeFirst] at h
    split at h
    · next hp =>
      obtain ⟨rfl, rfl⟩ := Prod.mk.inj (Option.some.inj h)
      exact ⟨[], evs, rfl, rfl, hp, fun y hy => nomatch hy⟩
    · next hp =>
      obtain ⟨⟨ev', rest'⟩, hTail, hEq⟩ := Option.map_eq_some_iff.mp h
      obtain ⟨rfl, rfl⟩ := Prod.mk.inj hEq
      obtain ⟨pre, post, rfl, rfl, hTakes, hPre⟩ := ih hTail
      refine ⟨x :: pre, post, rfl, rfl, hTakes, ?_⟩
      intro y hy
      obtain rfl | hy := List.mem_cons.mp hy
      · exact eq_false_of_ne_true hp
      · exact hPre y hy

theorem takeFirst_none {p : IGuiEvent → Bool} {evs : List IGuiEvent} (h : takeFirst p evs = none) :
    ∀ x ∈ evs, p x = false := by
  induction evs with
  | nil => exact fun x hx => nomatch hx
  | cons y evs ih =>
    rw [takeFirst] at h
    split at h
    · cases h
    · next hp =>
      intro x hx
      obtain rfl | hx := List.mem_cons.mp hx
      · exact eq_false_of_ne_true hp
      · exact ih (Option.map_eq_none_iff.mp h) x hx

/-! The invariant. -/

def inLane (lane : Option Int × Bool) (evs : List IGuiEvent) : List IGuiEvent :=
  evs.filter fun ev => ev.lane = lane

theorem inLane_append (lane : Option Int × Bool) (xs ys : List IGuiEvent) :
    inLane lane (xs ++ ys) = inLane lane xs ++ inLane lane ys := List.filter_append xs ys

/-- An event that is taken leaves none of its lane behind it, where nothing in front of it is asked for. -/
theorem inLane_taken {request : Request} {pre post : List IGuiEvent} {ev : IGuiEvent}
    (hTakes : request.takes ev = true) (hPre : ∀ x ∈ pre, request.takes x = false)
    (lane : Option Int × Bool) :
    inLane lane (pre ++ ev :: post) = inLane lane [ev] ++ inLane lane (pre ++ post) := by
  rw [List.append_cons pre ev post, inLane_append, inLane_append, inLane_append]
  by_cases hLane : ev.lane = lane
  · have hNone : inLane lane pre = [] := by
      apply List.filter_eq_nil_iff.mpr
      intro x hx hx'
      have hSame := takes_lane request (hLane.trans (of_decide_eq_true hx').symm)
      rw [hTakes, hPre x hx] at hSame
      cases hSame
    rw [hNone, List.nil_append, List.nil_append]
  · have hNone : inLane lane [ev] = [] := by
      apply List.filter_eq_nil_iff.mpr
      intro x hx
      obtain rfl := List.mem_singleton.mp hx
      exact fun h => hLane (of_decide_eq_true h)
    rw [hNone, List.append_nil, List.nil_append]

/-- Lane by lane the events pushed are those returned, then the stash, then the channel; and a call
that reads the channel has found nothing in the stash. -/
structure Orderly (t : Traffic) : Prop where
  lanes : ∀ lane, inLane lane t.pushed =
    inLane lane (t.returned.map Prod.snd) ++ inLane lane (t.stash ++ t.queue)
  asked : ∀ r ∈ t.returned, r.1.takes r.2 = true
  scanned : ∀ request timeoutMs, t.call = some ⟨request, timeoutMs, true⟩ →
    ∀ ev ∈ t.stash, request.takes ev = false

theorem Orderly.empty : Orderly .empty where
  lanes _ := rfl
  asked _ h := nomatch h
  scanned _ _ h := nomatch h

/-- A call is answered with an event it asked for, in front of which nothing was. -/
theorem Orderly.answer {t : Traffic} (h : Orderly t) {request : Request} {ev : IGuiEvent}
    {pre post : List IGuiEvent} (stash queue : List IGuiEvent)
    (hPending : t.stash ++ t.queue = pre ++ ev :: post) (hRest : stash ++ queue = pre ++ post)
    (hTakes : request.takes ev = true) (hPre : ∀ x ∈ pre, request.takes x = false) :
    Orderly (Traffic.answer { t with stash := stash, queue := queue } request ev) where
  lanes lane := by
    show inLane lane t.pushed = inLane lane ((t.returned ++ [(request, ev)]).map Prod.snd) ++
      inLane lane (stash ++ queue)
    rw [h.lanes lane, hPending, inLane_taken hTakes hPre, hRest, List.map_append,
      inLane_append lane (t.returned.map Prod.snd), List.append_assoc]
    rfl
  asked r hr := by
    obtain hr | hr := List.mem_append.mp hr
    · exact h.asked r hr
    · obtain rfl := List.mem_singleton.mp hr
      exact hTakes
  scanned _ _ hCall := nomatch hCall

theorem Orderly.act {t t' : Traffic} {a : Action} (h : Orderly t) (hRoom : t.roomFor a = true)
    (hAct : t.act a = some t') : Orderly t' := by
  cases a with
  | push ev =>
    rw [Traffic.act, if_pos (of_decide_eq_true hRoom)] at hAct
    obtain rfl := Option.some.inj hAct
    refine ⟨fun lane => ?_, h.asked, h.scanned⟩
    -- a push goes to the end of the queue, behind everything of its lane
    show inLane lane (t.pushed ++ [ev]) = _ ++ inLane lane (t.stash ++ (t.queue ++ [ev]))
    rw [inLane_append, h.lanes lane, ← List.append_assoc t.stash, inLane_append lane _ [ev],
      List.append_assoc]
  | filterOnWindow c =>
    obtain rfl := Option.some.inj hAct
    exact ⟨h.lanes, h.asked, h.scanned⟩
  | unfilterWindow c =>
    obtain rfl := Option.some.inj hAct
    exact ⟨h.lanes, h.asked, h.scanned⟩
  | clearFilter =>
    obtain rfl := Option.some.inj hAct
    exact ⟨h.lanes, h.asked, h.scanned⟩
  | nextEvent timeoutMs =>
    simp only [Traffic.act] at hAct
    split at hAct
    · obtain rfl := Option.some.inj hAct
      exact ⟨h.lanes, h.asked, fun _ _ hCall => nomatch hCall⟩
    · cases hAct
  | nextEventFor target timeoutMs =>
    simp only [Traffic.act] at hAct
    split at hAct
    · obtain rfl := Option.some.inj hAct
      exact ⟨h.lanes, h.asked, fun _ _ hCall => nomatch hCall⟩
    · cases hAct
  | scan =>
    simp only [Traffic.act] at hAct
    split at hAct
    · next request timeoutMs hCall =>
      split at hAct
      · next ev stash hTake =>
        obtain rfl := Option.some.inj hAct
        obtain ⟨pre, post, hStash, hLeft, hTakes, hPre⟩ := takeFirst_some hTake
        -- the first of its lane: what the scan passed over is of no lane the call takes
        exact h.answer stash t.queue (by rw [hStash, List.append_assoc, List.cons_append])
          (by rw [hLeft, List.append_assoc]) hTakes hPre
      · next hNone =>
        obtain rfl := Option.some.inj hAct
        refine ⟨h.lanes, h.asked, ?_⟩
        intro request' timeoutMs' hCall'
        obtain rfl := (Call.mk.inj (Option.some.inj hCall')).1
        exact takeFirst_none hNone
    · cases hAct
  | recv =>
    simp only [Traffic.act] at hAct
    split at hAct
    · next request timeoutMs ev queue hCall hQueue =>
      have hStash := h.scanned request timeoutMs hCall
      split at hAct
      · next hTakes =>
        obtain rfl := Option.some.inj hAct
        -- the stash was scanned and holds nothing the call takes
        exact h.answer t.stash queue (by rw [hQueue]) rfl hTakes hStash
      · next hTakes =>
        obtain rfl := Option.some.inj hAct
        -- what the call does not take moves from the queue to the end of the stash
        refine ⟨fun lane => ?_, h.asked, ?_⟩
        · show inLane lane t.pushed = _ ++ inLane lane (t.stash ++ [ev] ++ queue)
          rw [h.lanes lane, hQueue, List.append_assoc]
          rfl
        · intro request' timeoutMs' hCall'
          obtain rfl := (Call.mk.inj (Option.some.inj (hCall.symm.trans hCall'))).1
          intro x hx
          obtain hx | hx := List.mem_append.mp hx
          · exact hStash x hx
          · obtain rfl := List.mem_singleton.mp hx
            exact eq_false_of_ne_true hTakes
    · cases hAct
  | timeout =>
    simp only [Traffic.act] at hAct
    split at hAct
    · split at hAct
      · obtain rfl := Option.some.inj hAct
        exact ⟨h.lanes, h.asked, fun _ _ hCall => nomatch hCall⟩
      · cases hAct
    · cases hAct

theorem Orderly.step {t t' : Traffic} {a : Action} (h : Orderly t) (hStep : Step t a t') :
    Orderly t' := by
  unfold Step Traffic.step at hStep
  split at hStep
  · next hRoom => exact h.act hRoom hStep
  · cases hStep

theorem Orderly.once {t : Traffic} (h : Orderly t) :
    t.pushed.Perm (t.returned.map Prod.snd ++ (t.stash ++ t.queue)) := by
  apply List.perm_iff_count.mpr
  intro ev
  have hLane := congrArg (List.count ev) (h.lanes ev.lane)
  have hCount : ∀ evs : List IGuiEvent, (inLane ev.lane evs).count ev = evs.count ev :=
    fun evs => List.count_filter (decide_eq_true rfl)
  rw [List.count_append, hCount, hCount, hCount] at hLane
  rw [List.count_append, hLane]

/-- No event is lost or returned twice, a call gets what it asked for, and the events that every
request treats alike are returned in the order they were pushed in. -/
theorem mailbox_orderly {as : List Action} {t : Traffic} (h : Run Step .empty as t) :
    t.pushed.Perm (t.returned.map Prod.snd ++ (t.stash ++ t.queue)) ∧
      (∀ r ∈ t.returned, r.1.takes r.2 = true) ∧
      ∀ lane, inLane lane (t.returned.map Prod.snd) <+: inLane lane t.pushed := by
  have hOrderly : Orderly t := h.keeps (fun _ _ _ ho hStep => ho.step hStep) Orderly.empty
  refine ⟨hOrderly.once, hOrderly.asked, fun lane => ?_⟩
  rw [hOrderly.lanes lane]
  exact List.prefix_append _ _

/-- A DPI change and a key of one window, fetched for the window and then without a filter. -/
def dpiThenKey : List Action :=
  [.push (.dpiChange 1 19200 19200), .push (.key 1 65 30 0 1 true 5), .nextEventFor 1 (-1), .scan,
    .recv, .recv, .nextEvent 0, .scan]

def dpiThenKeyEnd : Traffic :=
  ⟨⟨[], [], [], none⟩, [.dpiChange 1 19200 19200, .key 1 65 30 0 1 true 5],
    [(.nextEventFor 1, .key 1 65 30 0 1 true 5), (.nextEvent [], .dpiChange 1 19200 19200)]⟩

theorem dpiThenKey_run : Run Step .empty dpiThenKey dpiThenKeyEnd :=
  Run.of_foldlM (by decide)

theorem mailbox_orderly_dpiThenKey :
    dpiThenKeyEnd.pushed.Perm
      (dpiThenKeyEnd.returned.map Prod.snd ++ (dpiThenKeyEnd.stash ++ dpiThenKeyEnd.queue)) ∧
      (∀ r ∈ dpiThenKeyEnd.returned, r.1.takes r.2 = true) ∧
      ∀ lane, inLane lane (dpiThenKeyEnd.returned.map Prod.snd) <+:
        inLane lane dpiThenKeyEnd.pushed := mailbox_orderly dpiThenKey_run

/-- The key is returned before the DPI change that was pushed first. -/
theorem mailbox_not_ordered :
    ¬ ∀ (as : List Action) (t : Traffic), Run Step .empty as t → ∀ c,
      ((t.returned.map Prod.snd).filter fun ev => ev.childId = some c).Sublist
        (t.pushed.filter fun ev => ev.childId = some c) := by
  intro h
  have hSublist := h dpiThenKey dpiThenKeyEnd dpiThenKey_run 1
  revert hSublist
  decide

end FactorForth.Gui
