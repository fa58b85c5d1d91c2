import Mathlib.Algebra.Order.Ring.Int
import Mathlib.Data.List.Basic
import Mathlib.Logic.Function.Basic
import Mathlib.Logic.Relation

/-! The synchronous text queries: a language thread asks for the metrics of a text by a batch that it submits
to a pane, and blocks until the GUI thread, which alone can lay text out, has painted the batch. -/

namespace FactorForth.Gui.TextQuery
variable {Text Pt F : Type}

inductive Query (Text Pt : Type) where
  | measureTextRun (run : Text)
  | charIndexAtPoint (run : Text) (point : Pt)
  | pointAtCharIndex (run : Text) (charIndex : Nat)

inductive Reply (F : Type) where
  | metrics (width height ascent : F) (lineCount : Nat)
  | hitTestPoint (charIndex : Nat) (isInside isTrailing : Bool)
  | hitTestPosition (x y height : F)
  | failed (message : String)

/-- The replies that a call takes for an answer. -/
def Query.accepts : Query Text Pt → Reply F → Bool
  | .measureTextRun _, .metrics _ _ _ _ => true
  | .charIndexAtPoint _ _, .hitTestPoint _ _ _ => true
  | .pointAtCharIndex _ _, .hitTestPosition _ _ _ => true
  | _, _ => false

/-- DirectWrite, as it lays text out during one paint. -/
structure DWrite (Text Pt F : Type) where
  metrics : Text → Except String (F × F × F × Nat)
  hitTestPoint : Text → Pt → Except String (Nat × Bool × Bool)
  hitTestPosition : Text → Nat → Except String (F × F × F)

def DWrite.answer (d : DWrite Text Pt F) : Query Text Pt → Reply F
  | .measureTextRun run =>
    match d.metrics run with
    | .ok (width, height, ascent, lineCount) => .metrics width height ascent lineCount
    | .error e => .failed e
  | .charIndexAtPoint run point =>
    match d.hitTestPoint run point with
    | .ok (charIndex, isInside, isTrailing) => .hitTestPoint charIndex isInside isTrailing
    | .error e => .failed e
  | .pointAtCharIndex run charIndex =>
    match d.hitTestPosition run charIndex with
    | .ok (x, y, height) => .hitTestPosition x y height
    | .error e => .failed e

/-- A command of a batch; what the others draw makes no difference here. -/
inductive SurfaceCmd (Text Pt : Type) where
  | draw
  | query (requestId : Nat) (q : Query Text Pt)

structure PaneBatch (Text Pt : Type) where
  childId : Int
  sequence : Nat
  flags : Nat
  cmds : List (SurfaceCmd Text Pt)

def answers (d : DWrite Text Pt F) (cmds : List (SurfaceCmd Text Pt)) : List (Nat × Reply F) :=
  cmds.filterMap fun
    | .query id q => some (id, d.answer q)
    | .draw => none

/-- The GDI fallback lays no text out. -/
def failures (cmds : List (SurfaceCmd Text Pt)) : List (Nat × Reply F) :=
  cmds.filterMap fun
    | .query id _ => some (id, .failed "text query unsupported on GDI fallback")
    | .draw => none

/-- The replies of a paint. Direct2D may give up in front of a command, and GDI then starts the batch again
and may give up too. -/
def paintReplies (d : DWrite Text Pt F) (cmds : List (SurfaceCmd Text Pt)) (d2d gdi : Option Nat) :
    List (Nat × Reply F) :=
  match d2d with
  | none => answers d cmds
  | some n => answers d (cmds.take n) ++ failures (gdi.elim cmds cmds.take)

/-- The id of the call with number `k`; the counter is a `u32` that starts at 1. -/
def requestId (k : Nat) : Nat := (k + 1) % 2 ^ 32

/-- Where a thread stands: `stored` between the two halves of `submit`, with the call it is for. -/
inductive Phase where
  | idle
  | allocated (k : Nat)
  | installed (k : Nat)
  | stored (call : Option Nat) (childId : Int)
  | waiting (k : Nat)
deriving DecidableEq, Repr

def Phase.call : Phase → Option Nat
  | .allocated k => some k
  | .installed k => some k
  | .stored call _ => call
  | .waiting k => some k
  | .idle => none

/-- A language thread, with the batch it is building. -/
structure Thread (Text Pt : Type) where
  current : Option (PaneBatch Text Pt)
  phase : Phase

/-- A canvas is painted from its batch, any other window in its own way. -/
inductive Pane where
  | canvas
  | other
deriving DecidableEq, Repr

/-- The threads and what they share. `asked` has the calls by their numbers, each with its pane; `slots` leads
from a request id to the call whose receiver waits, `boxes` holds what was sent to a call. `todo` is what the
paint in progress has still to deliver, `closing` the pane whose window is destroyed and which is not
unregistered yet, with whether its batch is forgotten. -/
structure Screen (Text Pt F : Type) where
  asked : List (Int × Query Text Pt)
  slots : Nat → Option Nat
  boxes : Nat → Option (Reply F)
  nextSequence : Nat
  paneStates : Int → Option (PaneBatch Text Pt)
  opened : List Int
  registered : Int → Option Pane
  threads : Nat → Thread Text Pt
  todo : List (Nat × Reply F)
  closing : Option (Int × Bool)
  layouts : List (DWrite Text Pt F)
  returned : List (Nat × Option (Reply F))

namespace Screen

def start : Screen Text Pt F where
  asked := []
  slots _ := none
  boxes _ := none
  nextSequence := 1
  paneStates _ := none
  opened := []
  registered _ := none
  threads _ := ⟨none, .idle⟩
  todo := []
  closing := none
  layouts := []
  returned := []

variable (s : Screen Text Pt F)

def setPhase (t : Nat) (phase : Phase) : Screen Text Pt F :=
  { s with threads := Function.update s.threads t { s.threads t with phase := phase } }

def setCurrent (t : Nat) (current : Option (PaneBatch Text Pt)) : Screen Text Pt F :=
  { s with threads := Function.update s.threads t { s.threads t with current := current } }

/-- The half of `submit` that replaces the batch of a pane. -/
def store (b : PaneBatch Text Pt) : Screen Text Pt F :=
  { s with paneStates := Function.update s.paneStates b.childId (some b) }

def giveBack (k : Nat) (r : Option (Reply F)) : Screen Text Pt F :=
  { s with returned := s.returned ++ [(k, r)] }

/-- `deliver`: the slot is taken, and where there is none nobody waits any more. -/
def deliver (id : Nat) (r : Reply F) : Screen Text Pt F :=
  match s.slots id with
  | some k => { s with slots := Function.update s.slots id none, boxes := Function.update s.boxes k (some r) }
  | none => s

end Screen

/-- The steps of the language threads and of the GUI thread, which does one thing after the other. -/
inductive Step : Screen Text Pt F → Screen Text Pt F → Prop
  | allocId {s : Screen Text Pt F} {t : Nat} (childId : Int) (q : Query Text Pt)
      (h : (s.threads t).phase = .idle) :
      Step s ({ s with asked := s.asked ++ [(childId, q)] }.setPhase t (.allocated s.asked.length))
  | install {s : Screen Text Pt F} {t k : Nat} (h : (s.threads t).phase = .allocated k) :
      Step s ({ s with slots := Function.update s.slots (requestId k) (some k) }.setPhase t (.installed k))
  -- `begin`, `push` and `finish` work on what is the thread's own, whose draft they overwrite
  | submitQuery {s : Screen Text Pt F} {t k : Nat} {childId : Int} {q : Query Text Pt}
      (h : (s.threads t).phase = .installed k) (hAsked : s.asked[k]? = some (childId, q)) :
      Step s (((({ s with nextSequence := s.nextSequence + 1 }.store
        ⟨childId, s.nextSequence, 0, [.query (requestId k) q]⟩).setCurrent t none).setPhase t
          (.stored (some k) childId)))
  | beginBatch {s : Screen Text Pt F} {t : Nat} (childId : Int) (h : (s.threads t).phase = .idle) :
      Step s ({ s with nextSequence := s.nextSequence + 1 }.setCurrent t (some ⟨childId, s.nextSequence, 0, []⟩))
  | push {s : Screen Text Pt F} {t : Nat} {b : PaneBatch Text Pt} (h : (s.threads t).phase = .idle)
      (hDraft : (s.threads t).current = some b) :
      Step s (s.setCurrent t (some { b with cmds := b.cmds ++ [.draw] }))
  | submitBatch {s : Screen Text Pt F} {t : Nat} {b : PaneBatch Text Pt} (h : (s.threads t).phase = .idle)
      (hDraft : (s.threads t).current = some b) :
      Step s (((s.store b).setCurrent t none).setPhase t (.stored none b.childId))
  | announceBatch {s : Screen Text Pt F} {t : Nat} {childId : Int}
      (h : (s.threads t).phase = .stored none childId) : Step s (s.setPhase t .idle)
  | announce {s : Screen Text Pt F} {t k : Nat} {childId : Int}
      (h : (s.threads t).phase = .stored (some k) childId) (hOpen : (s.registered childId).isSome = true) :
      Step s (s.setPhase t (.waiting k))
  | announceNone {s : Screen Text Pt F} {t k : Nat} {childId : Int}
      (h : (s.threads t).phase = .stored (some k) childId) (hOpen : s.registered childId = none) :
      Step s ((s.giveBack k none).setPhase t .idle)
  | receive {s : Screen Text Pt F} {t k : Nat} {childId : Int} {q : Query Text Pt} {r : Reply F}
      (h : (s.threads t).phase = .waiting k) (hAsked : s.asked[k]? = some (childId, q))
      (hBox : s.boxes k = some r) :
      Step s ((s.giveBack k (if q.accepts r then some r else none)).setPhase t .idle)
  | timeout {s : Screen Text Pt F} {t k : Nat} (h : (s.threads t).phase = .waiting k)
      (hBox : s.boxes k = none) : Step s ((s.giveBack k none).setPhase t .idle)
  | openPane {s : Screen Text Pt F} (childId : Int) (pane : Pane) (hIdle : s.todo = [] ∧ s.closing = none)
      (hNew : childId ∉ s.opened) :
      Step s { s with opened := childId :: s.opened,
                      registered := Function.update s.registered childId (some pane) }
  | paint {s : Screen Text Pt F} {childId : Int} {b : PaneBatch Text Pt} (d : DWrite Text Pt F)
      (d2d gdi : Option Nat) (hIdle : s.todo = [] ∧ s.closing = none)
      (hCanvas : s.registered childId = some .canvas) (hBatch : s.paneStates childId = some b) :
      Step s { s with todo := paintReplies d b.cmds d2d gdi, layouts := d :: s.layouts }
  | deliver {s : Screen Text Pt F} {id : Nat} {r : Reply F} {todo : List (Nat × Reply F)}
      (hTodo : s.todo = (id, r) :: todo) : Step s { s.deliver id r with todo := todo }
  | closePane {s : Screen Text Pt F} {childId : Int} {pane : Pane} (hIdle : s.todo = [] ∧ s.closing = none)
      (hOpen : s.registered childId = some pane) :
      -- the windows that are no canvas have no batch to forget
      Step s { s with closing := some (childId, pane = .other) }
  | forget {s : Screen Text Pt F} {childId : Int} (hClosing : s.closing = some (childId, false)) :
      Step s { s with paneStates := Function.update s.paneStates childId none, closing := some (childId, true) }
  | unregister {s : Screen Text Pt F} {childId : Int} (hClosing : s.closing = some (childId, true)) :
      Step s { s with registered := Function.update s.registered childId none, closing := none }

/-- The states that the threads may come to, in any order of their steps. -/
abbrev Reaches : Screen Text Pt F → Screen Text Pt F → Prop := Relation.ReflTransGen Step

/-! Whose replies they are. -/

/-- A call asked this of this pane, under this id. -/
def Asked (s : Screen Text Pt F) (childId : Int) (id : Nat) (q : Query Text Pt) : Prop :=
  ∃ k, s.asked[k]? = some (childId, q) ∧ requestId k = id

/-- The query was laid out in some paint, or failed. -/
def Answered (s : Screen Text Pt F) (q : Query Text Pt) (r : Reply F) : Prop :=
  (∃ d ∈ s.layouts, r = d.answer q) ∨ ∃ message, r = .failed message

/-- Everything on its way from a query to its answer belongs to a call with the id that it goes by. -/
structure Sound (s : Screen Text Pt F) : Prop where
  batches : ∀ childId b, s.paneStates childId = some b → ∀ id q, .query id q ∈ b.cmds → Asked s childId id q
  drafts : ∀ t b, (s.threads t).current = some b → ∀ id q, .query id q ∉ b.cmds
  todo : ∀ id r, (id, r) ∈ s.todo → ∃ childId q, Asked s childId id q ∧ Answered s q r
  slots : ∀ id k, s.slots id = some k → requestId k = id
  boxes : ∀ k r, s.boxes k = some r → ∃ childId q, Asked s childId (requestId k) q ∧ Answered s q r
  returned : ∀ k r, (k, some r) ∈ s.returned → ∃ childId q childId' q', s.asked[k]? = some (childId, q) ∧
    q.accepts r = true ∧ Asked s childId' (requestId k) q' ∧ Answered s q' r

section Sound
variable {s s' : Screen Text Pt F}

theorem asked_mono (h : s.asked <+: s'.asked) {k : Nat} {call : Int × Query Text Pt}
    (hk : s.asked[k]? = some call) : s'.asked[k]? = some call := by
  obtain ⟨later, hLater⟩ := h
  rw [← hLater, List.getElem?_append_left (List.getElem?_eq_some_iff.1 hk).1]
  exact hk

theorem Asked.mono (h : s.asked <+: s'.asked) {childId : Int} {id : Nat} {q : Query Text Pt}
    (hAsked : Asked s childId id q) : Asked s' childId id q := by
  obtain ⟨k, hk, hId⟩ := hAsked
  exact ⟨k, asked_mono h hk, hId⟩

theorem Answered.mono (h : s.layouts ⊆ s'.layouts) {q : Query Text Pt} {r : Reply F} (hr : Answered s q r) :
    Answered s' q r := by
  obtain ⟨d, hd, hEq⟩ | hFailed := hr
  · exact Or.inl ⟨d, h hd, hEq⟩
  · exact Or.inr hFailed

theorem mem_paintReplies {d : DWrite Text Pt F} {cmds : List (SurfaceCmd Text Pt)} {d2d gdi : Option Nat}
    {id : Nat} {r : Reply F} (h : (id, r) ∈ paintReplies d cmds d2d gdi) :
    ∃ q, .query id q ∈ cmds ∧ (r = d.answer q ∨ ∃ message, r = .failed message) := by
  have hAnswer {cmds : List (SurfaceCmd Text Pt)} (h : (id, r) ∈ answers d cmds) :
      ∃ q, .query id q ∈ cmds ∧ r = d.answer q := by
    obtain ⟨cmd, hCmd, hSome⟩ := List.mem_filterMap.1 h
    cases cmd with
    | draw => cases hSome
    | query id q =>
      cases hSome
      exact ⟨q, hCmd, rfl⟩
  have hFailure {cmds : List (SurfaceCmd Text Pt)} (h : (id, r) ∈ failures cmds) :
      ∃ q, .query id q ∈ cmds ∧ ∃ message, r = .failed message := by
    obtain ⟨cmd, hCmd, hSome⟩ := List.mem_filterMap.1 h
    cases cmd with
    | draw => cases hSome
    | query id q =>
      cases hSome
      exact ⟨q, hCmd, _, rfl⟩
  cases d2d with
  | none =>
    obtain ⟨q, hq, hr⟩ := hAnswer h
    exact ⟨q, hq, Or.inl hr⟩
  | some n =>
    obtain h | h := List.mem_append.1 h
    · obtain ⟨q, hq, hr⟩ := hAnswer h
      exact ⟨q, List.mem_of_mem_take hq, Or.inl hr⟩
    · obtain ⟨q, hq, hr⟩ := hFailure h
      refine ⟨q, ?_, Or.inr hr⟩
      cases gdi with
      | none => exact hq
      | some m => exact List.mem_of_mem_take hq

@[simp] theorem current_setPhase (s : Screen Text Pt F) (t t' : Nat) (phase : Phase) :
    ((s.setPhase t phase).threads t').current = (s.threads t').current := by
  unfold Screen.setPhase
  dsimp only
  by_cases h : t' = t
  · rw [h, Function.update_self]
  · rw [Function.update_of_ne h]

theorem current_setCurrent {s : Screen Text Pt F} {t t' : Nat} {current : Option (PaneBatch Text Pt)}
    {b : PaneBatch Text Pt} (h : ((s.setCurrent t current).threads t').current = some b) :
    current = some b ∨ (s.threads t').current = some b := by
  unfold Screen.setCurrent at h
  dsimp only at h
  by_cases hEq : t' = t
  · rw [hEq, Function.update_self] at h
    exact Or.inl h
  · rw [Function.update_of_ne hEq] at h
    exact Or.inr h

/-- What a step has to say for itself: whatever it adds belongs to a call. -/
theorem Sound.of_added (h : Sound s) (hAsked : s.asked <+: s'.asked) (hLayouts : s.layouts ⊆ s'.layouts)
    (hBatches : ∀ childId b, s'.paneStates childId = some b → s.paneStates childId = some b ∨
      ∀ id q, .query id q ∈ b.cmds → Asked s' childId id q)
    (hDrafts : ∀ t b, (s'.threads t).current = some b → (∃ t', (s.threads t').current = some b) ∨
      ∀ id q, .query id q ∉ b.cmds)
    (hTodo : ∀ id r, (id, r) ∈ s'.todo → (id, r) ∈ s.todo ∨
      ∃ childId q, Asked s' childId id q ∧ Answered s' q r)
    (hSlots : ∀ id k, s'.slots id = some k → s.slots id = some k ∨ requestId k = id)
    (hBoxes : ∀ k r, s'.boxes k = some r → s.boxes k = some r ∨
      ∃ childId q, Asked s' childId (requestId k) q ∧ Answered s' q r)
    (hReturned : ∀ k r, (k, some r) ∈ s'.returned → (k, some r) ∈ s.returned ∨
      ∃ childId q childId' q', s'.asked[k]? = some (childId, q) ∧ q.accepts r = true ∧
        Asked s' childId' (requestId k) q' ∧ Answered s' q' r) : Sound s' where
  batches childId b hb := by
    obtain hOld | hNew := hBatches childId b hb
    · exact fun id q hq => (h.batches childId b hOld id q hq).mono hAsked
    · exact hNew
  drafts t b hb := by
    obtain ⟨t', hOld⟩ | hNew := hDrafts t b hb
    · exact h.drafts t' b hOld
    · exact hNew
  todo id r hr := by
    obtain hOld | hNew := hTodo id r hr
    · obtain ⟨childId, q, hq, hAnswered⟩ := h.todo id r hOld
      exact ⟨childId, q, hq.mono hAsked, hAnswered.mono hLayouts⟩
    · exact hNew
  slots id k hk := by
    obtain hOld | hNew := hSlots id k hk
    · exact h.slots id k hOld
    · exact hNew
  boxes k r hr := by
    obtain hOld | hNew := hBoxes k r hr
    · obtain ⟨childId, q, hq, hAnswered⟩ := h.boxes k r hOld
      exact ⟨childId, q, hq.mono hAsked, hAnswered.mono hLayouts⟩
    · exact hNew
  returned k r hr := by
    obtain hOld | hNew := hReturned k r hr
    · obtain ⟨childId, q, childId', q', hk, hAccepts, hq', hAnswered⟩ := h.returned k r hOld
      exact ⟨childId, q, childId', q', asked_mono hAsked hk, hAccepts, hq'.mono hAsked, hAnswered.mono hLayouts⟩
    · exact hNew

theorem Sound.setPhase (h : Sound s) (t : Nat) (phase : Phase) : Sound (s.setPhase t phase) := by
  refine h.of_added (List.prefix_refl _) (List.Subset.refl _) (fun _ _ => Or.inl) (fun t' b hb => ?_)
    (fun _ _ => Or.inl) (fun _ _ => Or.inl) (fun _ _ => Or.inl) fun _ _ => Or.inl
  rw [current_setPhase] at hb
  exact Or.inl ⟨t', hb⟩

theorem Sound.setCurrent (h : Sound s) (t : Nat) {current : Option (PaneBatch Text Pt)}
    (hCurrent : ∀ b, current = some b → ∀ id q, .query id q ∉ b.cmds) : Sound (s.setCurrent t current) := by
  refine h.of_added (List.prefix_refl _) (List.Subset.refl _) (fun _ _ => Or.inl) (fun t' b hb => ?_)
    (fun _ _ => Or.inl) (fun _ _ => Or.inl) (fun _ _ => Or.inl) fun _ _ => Or.inl
  obtain hNew | hOld := current_setCurrent hb
  · exact Or.inr (hCurrent b hNew)
  · exact Or.inl ⟨t', hOld⟩

theorem Sound.sequence (h : Sound s) (n : Nat) : Sound { s with nextSequence := n } :=
  h.of_added (List.prefix_refl _) (List.Subset.refl _) (fun _ _ => Or.inl) (fun t _ hb => Or.inl ⟨t, hb⟩)
    (fun _ _ => Or.inl) (fun _ _ => Or.inl) (fun _ _ => Or.inl) fun _ _ => Or.inl

theorem Sound.store (h : Sound s) {b : PaneBatch Text Pt}
    (hBatch : ∀ id q, .query id q ∈ b.cmds → Asked s b.childId id q) : Sound (s.store b) := by
  refine h.of_added (List.prefix_refl _) (List.Subset.refl _) (fun childId b' hb => ?_)
    (fun t _ hb => Or.inl ⟨t, hb⟩) (fun _ _ => Or.inl) (fun _ _ => Or.inl) (fun _ _ => Or.inl) fun _ _ => Or.inl
  change Function.update s.paneStates b.childId (some b) childId = some b' at hb
  by_cases hEq : childId = b.childId
  · rw [hEq, Function.update_self] at hb
    obtain rfl := Option.some.inj hb
    rw [hEq]
    exact Or.inr hBatch
  · rw [Function.update_of_ne hEq] at hb
    exact Or.inl hb

theorem Sound.giveBack (h : Sound s) (k : Nat) {r : Option (Reply F)}
    (hReturned : ∀ r', r = some r' → ∃ childId q childId' q', s.asked[k]? = some (childId, q) ∧
      q.accepts r' = true ∧ Asked s childId' (requestId k) q' ∧ Answered s q' r') :
    Sound (s.giveBack k r) := by
  refine h.of_added (List.prefix_refl _) (List.Subset.refl _) (fun _ _ => Or.inl)
    (fun t _ hb => Or.inl ⟨t, hb⟩) (fun _ _ => Or.inl) (fun _ _ => Or.inl) (fun _ _ => Or.inl) fun k' r' hr => ?_
  obtain hOld | hNew := List.mem_append.1 hr
  · exact Or.inl hOld
  · obtain ⟨rfl, rfl⟩ := Prod.mk.inj (List.mem_singleton.1 hNew)
    exact Or.inr (hReturned r' rfl)

theorem Sound.deliver (h : Sound s) {id : Nat} {r : Reply F} {todo : List (Nat × Reply F)}
    (hTodo : s.todo = (id, r) :: todo) : Sound { s.deliver id r with todo := todo } := by
  have hRest : ∀ p ∈ todo, p ∈ s.todo := fun p hp => hTodo ▸ List.mem_cons_of_mem _ hp
  have hFirst : (id, r) ∈ s.todo := hTodo ▸ List.mem_cons_self
  unfold Screen.deliver
  cases hSlot : s.slots id with
  | none =>
    exact h.of_added (List.prefix_refl _) (List.Subset.refl _) (fun _ _ => Or.inl)
      (fun t _ hb => Or.inl ⟨t, hb⟩) (fun _ _ hr => Or.inl (hRest _ hr)) (fun _ _ => Or.inl) (fun _ _ => Or.inl)
      fun _ _ => Or.inl
  | some k =>
    refine h.of_added (List.prefix_refl _) (List.Subset.refl _) (fun _ _ => Or.inl)
      (fun t _ hb => Or.inl ⟨t, hb⟩) (fun _ _ hr => Or.inl (hRest _ hr)) (fun id' k' hk => ?_) (fun k' r' hr => ?_)
      fun _ _ => Or.inl
    · change Function.update s.slots id none id' = some k' at hk
      by_cases hEq : id' = id
      · rw [hEq, Function.update_self] at hk
        cases hk
      · rw [Function.update_of_ne hEq] at hk
        exact Or.inl hk
    · change Function.update s.boxes k (some r) k' = some r' at hr
      by_cases hEq : k' = k
      · rw [hEq, Function.update_self] at hr
        obtain rfl := Option.some.inj hr
        rw [hEq, h.slots id k hSlot]
        exact Or.inr (h.todo id r hFirst)
      · rw [Function.update_of_ne hEq] at hr
        exact Or.inl hr

theorem Sound.step (h : Sound s) (hStep : Step s s') : Sound s' := by
  cases hStep with
  | allocId childId q _ =>
    refine Sound.setPhase ?_ _ _
    exact h.of_added (List.prefix_append _ _) (List.Subset.refl _) (fun _ _ => Or.inl)
      (fun t _ hb => Or.inl ⟨t, hb⟩) (fun _ _ => Or.inl) (fun _ _ => Or.inl) (fun _ _ => Or.inl) fun _ _ => Or.inl
  | @install t k _ =>
    refine Sound.setPhase ?_ _ _
    refine h.of_added (List.prefix_refl _) (List.Subset.refl _) (fun _ _ => Or.inl)
      (fun t _ hb => Or.inl ⟨t, hb⟩) (fun _ _ => Or.inl) (fun id k' hk => ?_) (fun _ _ => Or.inl) fun _ _ => Or.inl
    change Function.update s.slots (requestId k) (some k) id = some k' at hk
    by_cases hEq : id = requestId k
    · rw [hEq, Function.update_self] at hk
      obtain rfl := Option.some.inj hk
      exact Or.inr hEq.symm
    · rw [Function.update_of_ne hEq] at hk
      exact Or.inl hk
  | @submitQuery t k childId q _ hAsked =>
    refine Sound.setPhase (Sound.setCurrent (Sound.store (h.sequence _) ?_) _ (fun b hb => by cases hb)) _ _
    intro id q' hq
    cases List.mem_singleton.1 hq
    exact ⟨k, hAsked, rfl⟩
  | beginBatch childId _ =>
    refine Sound.setCurrent (h.sequence _) _ fun b hb id q hq => ?_
    cases hb
    cases hq
  | @push t b _ hDraft =>
    refine h.setCurrent _ fun b' hb id q hq => ?_
    cases hb
    obtain hq | hq := List.mem_append.1 hq
    · exact h.drafts t b hDraft id q hq
    · cases List.mem_singleton.1 hq
  | @submitBatch t b _ hDraft =>
    refine Sound.setPhase (Sound.setCurrent (h.store fun id q hq => ?_) _ (fun b hb => by cases hb)) _ _
    exact absurd hq (h.drafts t b hDraft id q)
  | announceBatch _ => exact h.setPhase _ _
  | announce _ _ => exact h.setPhase _ _
  | announceNone _ _ => exact Sound.setPhase (h.giveBack _ fun r hr => by cases hr) _ _
  | @receive t k childId q r _ hAsked hBox =>
    refine Sound.setPhase (h.giveBack _ fun r' hr => ?_) _ _
    split at hr
    · rename_i hAccepts
      obtain rfl := Option.some.inj hr
      obtain ⟨childId', q', hq', hAnswered⟩ := h.boxes k r hBox
      exact ⟨childId, q, childId', q', hAsked, hAccepts, hq', hAnswered⟩
    · cases hr
  | timeout _ _ => exact Sound.setPhase (h.giveBack _ fun r hr => by cases hr) _ _
  | openPane | closePane =>
    exact h.of_added (List.prefix_refl _) (List.Subset.refl _) (fun _ _ => Or.inl)
      (fun t _ hb => Or.inl ⟨t, hb⟩) (fun _ _ => Or.inl) (fun _ _ => Or.inl) (fun _ _ => Or.inl) fun _ _ => Or.inl
  | @paint childId b d d2d gdi _ _ hBatch =>
    refine h.of_added (List.prefix_refl _) (List.subset_cons_self _ _) (fun _ _ => Or.inl)
      (fun t _ hb => Or.inl ⟨t, hb⟩) (fun id r hr => ?_) (fun _ _ => Or.inl) (fun _ _ => Or.inl) fun _ _ => Or.inl
    obtain ⟨q, hq, hAnswer⟩ := mem_paintReplies hr
    refine Or.inr ⟨childId, q, h.batches childId b hBatch id q hq, ?_⟩
    obtain hAnswer | hFailed := hAnswer
    · exact Or.inl ⟨d, List.mem_cons_self, hAnswer⟩
    · exact Or.inr hFailed
  | deliver hTodo => exact h.deliver hTodo
  | @forget childId _ =>
    refine h.of_added (List.prefix_refl _) (List.Subset.refl _) (fun childId' b hb => ?_)
      (fun t _ hb => Or.inl ⟨t, hb⟩) (fun _ _ => Or.inl) (fun _ _ => Or.inl) (fun _ _ => Or.inl) fun _ _ => Or.inl
    change Function.update s.paneStates childId none childId' = some b at hb
    by_cases hEq : childId' = childId
    · rw [hEq, Function.update_self] at hb
      cases hb
    · rw [Function.update_of_ne hEq] at hb
      exact Or.inl hb
  | unregister _ =>
    exact h.of_added (List.prefix_refl _) (List.Subset.refl _) (fun _ _ => Or.inl)
      (fun t _ hb => Or.inl ⟨t, hb⟩) (fun _ _ => Or.inl) (fun _ _ => Or.inl) (fun _ _ => Or.inl) fun _ _ => Or.inl

theorem Sound.start : Sound (Screen.start : Screen Text Pt F) where
  batches _ _ hb := by cases hb
  drafts _ _ hb := by cases hb
  todo _ _ hr := by cases hr
  slots _ _ hk := by cases hk
  boxes _ _ hr := by cases hr
  returned _ _ hr := by cases hr

theorem Sound.reaches (h : Reaches .start s) : Sound s := by
  induction h with
  | refl => exact .start
  | tail _ hStep ih => exact ih.step hStep

end Sound

/-! The ids. -/

theorem requestId_inj {k k' : Nat} (hk : k < 2 ^ 32) (hk' : k' < 2 ^ 32) (h : requestId k = requestId k') :
    k = k' := by
  unfold requestId at h
  omega

section Ids
variable {s s' : Screen Text Pt F}

theorem asked_lt {k : Nat} {call : Int × Query Text Pt} (h : s.asked[k]? = some call) : k < s.asked.length :=
  (List.getElem?_eq_some_iff.1 h).1

/-- While the ids do not start again, an id is that of one call. -/
theorem Asked.own (hIds : s.asked.length ≤ 2 ^ 32) {childId : Int} {k : Nat} {q : Query Text Pt}
    (h : Asked s childId (requestId k) q) (hk : k < s.asked.length) : s.asked[k]? = some (childId, q) := by
  obtain ⟨k', hAsked, hId⟩ := h
  obtain rfl := requestId_inj (Nat.lt_of_lt_of_le (asked_lt hAsked) hIds) (Nat.lt_of_lt_of_le hk hIds) hId
  exact hAsked

end Ids

/-- In every interleaving in which the ids have not started again, what a call returns is the answer to its
own query, from some paint. -/
theorem returned_own {s : Screen Text Pt F} (h : Reaches .start s) (hIds : s.asked.length ≤ 2 ^ 32) {k : Nat}
    {r : Reply F} (hReturned : (k, some r) ∈ s.returned) :
    ∃ childId q, s.asked[k]? = some (childId, q) ∧ ∃ d ∈ s.layouts, r = d.answer q := by
  obtain ⟨childId, q, childId', q', hAsked, hAccepts, hOther, hAnswered⟩ :=
    (Sound.reaches h).returned k r hReturned
  have hOwn := hOther.own hIds (asked_lt hAsked)
  rw [hAsked] at hOwn
  obtain ⟨rfl, rfl⟩ := Prod.mk.inj (Option.some.inj hOwn)
  obtain hLayout | ⟨message, rfl⟩ := hAnswered
  · exact ⟨childId, q, hAsked, hLayout⟩
  · cases q <;> cases hAccepts

/-! The calls in progress. -/

/-- The call whose slot the thread has installed. -/
def Phase.posted : Phase → Option Nat
  | .installed k => some k
  | .stored call _ => call
  | .waiting k => some k
  | _ => none

/-- Each call is made by one thread, its slot stands until it is answered, and it waits for a pane that was
opened. -/
structure Tracked (s : Screen Text Pt F) : Prop where
  known : ∀ t k, (s.threads t).phase.call = some k → k < s.asked.length
  owner : ∀ t t' k, (s.threads t).phase.call = some k → (s.threads t').phase.call = some k → t = t'
  slotted : ∀ t k, (s.threads t).phase.posted = some k → s.slots (requestId k) = some k ∨ (s.boxes k).isSome
  stored : ∀ t k childId, (s.threads t).phase = .stored (some k) childId → ∃ q, s.asked[k]? = some (childId, q)
  waiting : ∀ t k, (s.threads t).phase = .waiting k → ∃ childId ∈ s.opened, ∃ q, s.asked[k]? = some (childId, q)
  opened : ∀ childId pane, s.registered childId = some pane → childId ∈ s.opened

section Tracked
variable {s s' : Screen Text Pt F}

theorem posted_call {phase : Phase} {k : Nat} (h : phase.posted = some k) : phase.call = some k := by
  cases phase with
  | idle | allocated => cases h
  | _ => exact h

theorem phase_setPhase (s : Screen Text Pt F) (t t' : Nat) (phase : Phase) :
    ((s.setPhase t phase).threads t').phase = if t' = t then phase else (s.threads t').phase := by
  unfold Screen.setPhase
  dsimp only
  by_cases h : t' = t
  · rw [h, Function.update_self, if_pos rfl]
  · rw [Function.update_of_ne h, if_neg h]

theorem phase_setCurrent (s : Screen Text Pt F) (t t' : Nat) (current : Option (PaneBatch Text Pt)) :
    ((s.setCurrent t current).threads t').phase = (s.threads t').phase := by
  unfold Screen.setCurrent
  dsimp only
  by_cases h : t' = t
  · rw [h, Function.update_self]
  · rw [Function.update_of_ne h]

theorem step_asked (h : Step s s') : s.asked <+: s'.asked := by
  cases h with
  | allocId childId q _ => exact List.prefix_append _ _
  | @deliver id r todo hTodo =>
    show s.asked <+: (s.deliver id r).asked
    unfold Screen.deliver
    split <;> exact List.prefix_refl _
  | _ => exact List.prefix_refl _

/-- A thread goes on to `phase`, with a call of its own or a new one. -/
theorem Tracked.moved (h : Tracked s) {t : Nat} (phase : Phase)
    (hThreads : ∀ t', (s'.threads t').phase = if t' = t then phase else (s.threads t').phase)
    (hAsked : s.asked <+: s'.asked) (hOpened : s'.opened = s.opened) (hRegistered : s'.registered = s.registered)
    (hBoxes : s'.boxes = s.boxes)
    (hCall : ∀ k, phase.call = some k → (s.threads t).phase.call = some k ∨
      k = s.asked.length ∧ k < s'.asked.length)
    (hSlots : ∀ k, k < s.asked.length → s.slots (requestId k) = some k → s'.slots (requestId k) = some k)
    (hPosted : ∀ k, phase.posted = some k → (s.threads t).phase.posted = some k ∨
      s'.slots (requestId k) = some k)
    (hStored : ∀ k childId, phase = .stored (some k) childId → ∃ q, s.asked[k]? = some (childId, q))
    (hWaiting : ∀ k, phase = .waiting k → ∃ childId ∈ s.opened, ∃ q, s.asked[k]? = some (childId, q)) :
    Tracked s' where
  known t' k hk := by
    rw [hThreads] at hk
    split at hk
    · obtain hOld | ⟨-, hNew⟩ := hCall k hk
      · exact Nat.lt_of_lt_of_le (h.known t k hOld) hAsked.length_le
      · exact hNew
    · exact Nat.lt_of_lt_of_le (h.known t' k hk) hAsked.length_le
  owner t₁ t₂ k h₁ h₂ := by
    have hMixed : ∀ t', t' ≠ t → phase.call = some k → (s.threads t').phase.call ≠ some k := by
      intro t' hNe hNew hOther
      obtain hOld | ⟨hFresh, -⟩ := hCall k hNew
      · exact hNe (h.owner t' t k hOther hOld)
      · exact Nat.lt_irrefl _ (hFresh ▸ h.known t' k hOther)
    rw [hThreads] at h₁ h₂
    split at h₁
    · rename_i hFirst
      split at h₂
      · rename_i hSecond
        rw [hFirst, hSecond]
      · rename_i hSecond
        exact absurd h₂ (hMixed t₂ hSecond h₁)
    · rename_i hFirst
      split at h₂
      · exact absurd h₁ (hMixed t₁ hFirst h₂)
      · exact h.owner t₁ t₂ k h₁ h₂
  slotted t' k hk := by
    have hKept : ∀ t', (s.threads t').phase.posted = some k →
        s'.slots (requestId k) = some k ∨ (s'.boxes k).isSome := by
      intro t' hOld
      rw [hBoxes]
      exact (h.slotted t' k hOld).imp_left (hSlots k (h.known t' k (posted_call hOld)))
    rw [hThreads] at hk
    split at hk
    · obtain hOld | hNew := hPosted k hk
      · exact hKept t hOld
      · exact Or.inl hNew
    · exact hKept t' hk
  stored t' k childId hk := by
    rw [hThreads] at hk
    split at hk
    · obtain ⟨q, hq⟩ := hStored k childId hk
      exact ⟨q, asked_mono hAsked hq⟩
    · obtain ⟨q, hq⟩ := h.stored t' k childId hk
      exact ⟨q, asked_mono hAsked hq⟩
  waiting t' k hk := by
    rw [hOpened]
    rw [hThreads] at hk
    split at hk
    · obtain ⟨childId, hOpen, q, hq⟩ := hWaiting k hk
      exact ⟨childId, hOpen, q, asked_mono hAsked hq⟩
    · obtain ⟨childId, hOpen, q, hq⟩ := h.waiting t' k hk
      exact ⟨childId, hOpen, q, asked_mono hAsked hq⟩
  opened childId pane hPane := by
    rw [hOpened]
    rw [hRegistered] at hPane
    exact h.opened childId pane hPane

/-- The GUI thread moves none of the others. -/
theorem Tracked.gui (h : Tracked s) (hThreads : s'.threads = s.threads) (hAsked : s'.asked = s.asked)
    (hOpened : s.opened ⊆ s'.opened)
    (hSlots : ∀ k, s.slots (requestId k) = some k ∨ (s.boxes k).isSome →
      s'.slots (requestId k) = some k ∨ (s'.boxes k).isSome)
    (hRegistered : ∀ childId pane, s'.registered childId = some pane → childId ∈ s'.opened) : Tracked s' where
  known t k hk := by
    rw [hThreads] at hk
    rw [hAsked]
    exact h.known t k hk
  owner t₁ t₂ k h₁ h₂ := by
    rw [hThreads] at h₁ h₂
    exact h.owner t₁ t₂ k h₁ h₂
  slotted t k hk := by
    rw [hThreads] at hk
    exact hSlots k (h.slotted t k hk)
  stored t k childId hk := by
    rw [hThreads] at hk
    rw [hAsked]
    exact h.stored t k childId hk
  waiting t k hk := by
    rw [hThreads] at hk
    rw [hAsked]
    obtain ⟨childId, hOpen, q, hq⟩ := h.waiting t k hk
    exact ⟨childId, hOpened hOpen, q, hq⟩
  opened := hRegistered

theorem deliver_slotted (id : Nat) (r : Reply F) {k : Nat}
    (h : s.slots (requestId k) = some k ∨ (s.boxes k).isSome) :
    (s.deliver id r).slots (requestId k) = some k ∨ ((s.deliver id r).boxes k).isSome := by
  unfold Screen.deliver
  cases hSlot : s.slots id with
  | none => exact h
  | some k' =>
    by_cases hSame : k = k'
    · right
      rw [hSame]
      show (Function.update s.boxes k' (some r) k').isSome = true
      rw [Function.update_self]
      rfl
    · refine h.imp (fun hOld => ?_) fun hOld => ?_
      · show Function.update s.slots id none (requestId k) = some k
        have hOther : requestId k ≠ id := by
          intro hEq
          rw [hEq, hSlot] at hOld
          exact hSame (Option.some.inj hOld).symm
        rw [Function.update_of_ne hOther]
        exact hOld
      · show (Function.update s.boxes k' (some r) k).isSome = true
        rw [Function.update_of_ne hSame]
        exact hOld

theorem deliver_kept (s : Screen Text Pt F) (id : Nat) (r : Reply F) :
    (s.deliver id r).threads = s.threads ∧ (s.deliver id r).asked = s.asked ∧
      (s.deliver id r).opened = s.opened ∧ (s.deliver id r).registered = s.registered ∧
      (s.deliver id r).paneStates = s.paneStates ∧ (s.deliver id r).closing = s.closing := by
  unfold Screen.deliver
  split <;> exact ⟨rfl, rfl, rfl, rfl, rfl, rfl⟩

theorem Tracked.idle (h : Tracked s) {t : Nat}
    (hThreads : ∀ t', (s'.threads t').phase = if t' = t then .idle else (s.threads t').phase)
    (hSame : s'.asked = s.asked ∧ s'.opened = s.opened ∧ s'.registered = s.registered ∧ s'.boxes = s.boxes ∧
      s'.slots = s.slots) : Tracked s' := by
  obtain ⟨hAsked, hOpened, hRegistered, hBoxes, hSlots⟩ := hSame
  refine h.moved _ hThreads (hAsked ▸ List.prefix_refl _) hOpened hRegistered hBoxes (fun _ hk => by cases hk)
    (fun k _ hk => hSlots ▸ hk) (fun _ hk => by cases hk) (fun _ _ hk => by cases hk) fun _ hk => by cases hk

theorem Tracked.step (h : Tracked s) (hStep : Step s s') (hIds : s'.asked.length ≤ 2 ^ 32) : Tracked s' := by
  have hSelf {t : Nat} (hIdle : (s.threads t).phase = .idle) (t' : Nat) :
      (s.threads t').phase = if t' = t then .idle else (s.threads t').phase := by
    split
    · rename_i hEq
      rw [hEq, hIdle]
    · rfl
  cases hStep with
  | @allocId t childId q hIdle =>
    refine h.moved _ (phase_setPhase _ t · _) (List.prefix_append _ _) rfl rfl rfl (fun k hk => ?_) (fun _ _ => id)
      (fun _ hk => by cases hk) (fun _ _ hk => by cases hk) fun _ hk => by cases hk
    obtain rfl := Option.some.inj hk
    exact Or.inr ⟨rfl, by simp [Screen.setPhase]⟩
  | @install t k hPhase =>
    have hCall : (s.threads t).phase.call = some k := by
      rw [hPhase]
      rfl
    have hKnown := h.known t k hCall
    refine h.moved _ (phase_setPhase _ t · _) (List.prefix_refl _) rfl rfl rfl (fun k' hk => ?_) (fun k' hk' hOld => ?_)
      (fun k' hk => ?_) (fun _ _ hk => by cases hk) fun _ hk => by cases hk
    · obtain rfl := Option.some.inj hk
      exact Or.inl hCall
    · show Function.update s.slots (requestId k) (some k) (requestId k') = some k'
      by_cases hEq : requestId k' = requestId k
      · obtain rfl := requestId_inj (Nat.lt_of_lt_of_le hk' hIds) (Nat.lt_of_lt_of_le hKnown hIds) hEq
        exact Function.update_self _ _ _
      · rw [Function.update_of_ne hEq]
        exact hOld
    · obtain rfl := Option.some.inj hk
      exact Or.inr (Function.update_self _ _ _)
  | @submitQuery t k childId q hPhase hAsked =>
    refine h.moved (t := t) (.stored (some k) childId) (fun t' => ?_) (List.prefix_refl _) rfl rfl rfl
      (fun k' hk => ?_) (fun _ _ => id) (fun k' hk => ?_) (fun k' childId' hk => ?_) fun _ hk => by cases hk
    · rw [phase_setPhase, phase_setCurrent]
      rfl
    · rw [hPhase]
      exact Or.inl hk
    · rw [hPhase]
      exact Or.inl hk
    · cases hk
      exact ⟨q, hAsked⟩
  | @beginBatch t childId hIdle =>
    refine h.idle (t := t) (fun t' => ?_) ⟨rfl, rfl, rfl, rfl, rfl⟩
    rw [phase_setCurrent]
    exact hSelf hIdle t'
  | @push t b hIdle _ =>
    refine h.idle (t := t) (fun t' => ?_) ⟨rfl, rfl, rfl, rfl, rfl⟩
    rw [phase_setCurrent]
    exact hSelf hIdle t'
  | @submitBatch t b hIdle _ =>
    refine h.moved (t := t) (.stored none b.childId) (fun t' => ?_) (List.prefix_refl _) rfl rfl rfl
      (fun _ hk => by cases hk) (fun _ _ => id) (fun _ hk => by cases hk) (fun _ _ hk => by cases hk)
      fun _ hk => by cases hk
    rw [phase_setPhase, phase_setCurrent]
    rfl
  | @announceBatch t childId _ => exact h.idle (phase_setPhase _ t · _) ⟨rfl, rfl, rfl, rfl, rfl⟩
  | @announce t k childId hPhase hOpen =>
    refine h.moved _ (phase_setPhase _ t · _) (List.prefix_refl _) rfl rfl rfl (fun k' hk => ?_) (fun _ _ => id)
      (fun k' hk => ?_) (fun _ _ hk => by cases hk) fun k' hk => ?_
    · rw [hPhase]
      exact Or.inl hk
    · rw [hPhase]
      exact Or.inl hk
    · cases hk
      obtain ⟨q, hq⟩ := h.stored t k childId hPhase
      obtain ⟨pane, hPane⟩ := Option.isSome_iff_exists.1 hOpen
      exact ⟨childId, h.opened childId pane hPane, q, hq⟩
  | @announceNone t k childId _ _ => exact h.idle (phase_setPhase _ t · _) ⟨rfl, rfl, rfl, rfl, rfl⟩
  | @receive t _ _ _ _ _ _ _ => exact h.idle (phase_setPhase _ t · _) ⟨rfl, rfl, rfl, rfl, rfl⟩
  | @timeout t _ _ _ => exact h.idle (phase_setPhase _ t · _) ⟨rfl, rfl, rfl, rfl, rfl⟩
  | openPane childId pane _ _ =>
    refine h.gui rfl rfl (List.subset_cons_self _ _) (fun _ hk => hk) fun childId' pane' hPane => ?_
    change Function.update s.registered childId (some pane) childId' = some pane' at hPane
    by_cases hEq : childId' = childId
    · rw [hEq]
      exact List.mem_cons_self
    · rw [Function.update_of_ne hEq] at hPane
      exact List.mem_cons_of_mem _ (h.opened childId' pane' hPane)
  | paint _ _ _ _ _ _ => exact h.gui rfl rfl (List.Subset.refl _) (fun _ hk => hk) h.opened
  | @deliver id r todo _ =>
    obtain ⟨hThreads, hAsked, hOpened, hRegistered, -, -⟩ := deliver_kept s id r
    refine h.gui hThreads hAsked ?_ (fun k hk => deliver_slotted id r hk) fun childId pane hPane => ?_
    · show s.opened ⊆ (s.deliver id r).opened
      rw [hOpened]
      exact List.Subset.refl _
    · change (s.deliver id r).registered childId = some pane at hPane
      show childId ∈ (s.deliver id r).opened
      rw [hRegistered] at hPane
      rw [hOpened]
      exact h.opened childId pane hPane
  | closePane _ _ => exact h.gui rfl rfl (List.Subset.refl _) (fun _ hk => hk) h.opened
  | forget _ => exact h.gui rfl rfl (List.Subset.refl _) (fun _ hk => hk) h.opened
  | @unregister childId _ =>
    refine h.gui rfl rfl (List.Subset.refl _) (fun _ hk => hk) fun childId' pane hPane => ?_
    change Function.update s.registered childId none childId' = some pane at hPane
    by_cases hEq : childId' = childId
    · rw [hEq, Function.update_self] at hPane
      cases hPane
    · rw [Function.update_of_ne hEq] at hPane
      exact h.opened childId' pane hPane

theorem Tracked.start : Tracked (Screen.start : Screen Text Pt F) where
  known _ _ hk := by cases hk
  owner _ _ _ hk := by cases hk
  slotted _ _ hk := by cases hk
  stored _ _ _ hk := by cases hk
  waiting _ _ hk := by cases hk
  opened _ _ hPane := by cases hPane

theorem Tracked.reaches (h : Reaches .start s) (hIds : s.asked.length ≤ 2 ^ 32) : Tracked s := by
  induction h with
  | refl => exact .start
  | tail _ hStep ih => exact (ih (Nat.le_trans (step_asked hStep).length_le hIds)).step hStep hIds

end Tracked

/-! Which calls can still be answered. -/

/-- The canvas that a call asks shows its batch and is not about to close. -/
def Showing (s : Screen Text Pt F) (k : Nat) : Prop :=
  ∃ childId q b, s.asked[k]? = some (childId, q) ∧ s.registered childId = some .canvas ∧
    s.closing.map Prod.fst ≠ some childId ∧ s.paneStates childId = some b ∧ .query (requestId k) q ∈ b.cmds

/-- The answer is there, is about to be delivered, or comes with the next paint of the pane. -/
def Answerable (s : Screen Text Pt F) (k : Nat) : Prop :=
  (s.boxes k).isSome ∨ requestId k ∈ s.todo.map Prod.fst ∨ Showing s k

/-- A call whose batch has been submitted to a pane that was opened. -/
structure Submitted (s : Screen Text Pt F) (k : Nat) : Prop where
  settled : ∀ t, (s.threads t).phase ≠ .allocated k ∧ (s.threads t).phase ≠ .installed k
  opened : ∃ childId ∈ s.opened, ∃ q, s.asked[k]? = some (childId, q)

section Answerable
variable {s s' : Screen Text Pt F} {k : Nat}

theorem Tracked.submitted (h : Tracked s) {t : Nat} (hWait : (s.threads t).phase = .waiting k) :
    Submitted s k := by
  have hCall : (s.threads t).phase.call = some k := by
    rw [hWait]
    rfl
  refine ⟨fun t' => ⟨fun hOther => ?_, fun hOther => ?_⟩, h.waiting t k hWait⟩
  · have hSame := h.owner t t' k hCall (by rw [hOther]; rfl)
    rw [← hSame, hWait] at hOther
    cases hOther
  · have hSame := h.owner t t' k hCall (by rw [hOther]; rfl)
    rw [← hSame, hWait] at hOther
    cases hOther

theorem Submitted.moved (h : Submitted s k) {t : Nat} (phase : Phase)
    (hThreads : ∀ t', (s'.threads t').phase = if t' = t then phase else (s.threads t').phase)
    (hPhase : phase ≠ .allocated k ∧ phase ≠ .installed k) (hAsked : s.asked <+: s'.asked)
    (hOpened : s.opened ⊆ s'.opened) : Submitted s' k := by
  refine ⟨fun t' => ?_, ?_⟩
  · rw [hThreads]
    split
    · exact hPhase
    · exact h.settled t'
  · obtain ⟨childId, hOpen, q, hq⟩ := h.opened
    exact ⟨childId, hOpened hOpen, q, asked_mono hAsked hq⟩

theorem Submitted.same (h : Submitted s k) (hThreads : ∀ t', (s'.threads t').phase = (s.threads t').phase)
    (hAsked : s.asked <+: s'.asked) (hOpened : s.opened ⊆ s'.opened) : Submitted s' k := by
  refine h.moved (t := 0) (s.threads 0).phase (fun t' => ?_) (h.settled 0) hAsked hOpened
  rw [hThreads]
  split
  · rename_i hEq
    rw [hEq]
  · rfl

theorem Submitted.step (h : Submitted s k) (hStep : Step s s') : Submitted s' k := by
  have hSame := List.prefix_refl s.asked
  have hOpen := List.Subset.refl s.opened
  cases hStep with
  | @allocId t childId q _ =>
    refine h.moved _ (phase_setPhase _ t · _) ⟨fun hEq => ?_, by simp⟩ (List.prefix_append _ _) hOpen
    obtain ⟨_, _, _, hk⟩ := h.opened
    cases hEq
    exact Nat.lt_irrefl _ (asked_lt hk)
  | @install t k' hPhase =>
    refine h.moved _ (phase_setPhase _ t · _) ⟨by simp, fun hEq => ?_⟩ hSame hOpen
    cases hEq
    exact (h.settled t).1 hPhase
  | @submitQuery t k' childId q _ _ =>
    refine h.moved (t := t) (.stored (some k') childId) (fun t' => ?_) (by simp) hSame hOpen
    rw [phase_setPhase, phase_setCurrent]
    rfl
  | beginBatch childId _ => exact h.same (fun t' => phase_setCurrent _ _ t' _) hSame hOpen
  | push _ _ => exact h.same (fun t' => phase_setCurrent _ _ t' _) hSame hOpen
  | @submitBatch t b _ _ =>
    refine h.moved (t := t) (.stored none b.childId) (fun t' => ?_) (by simp) hSame hOpen
    rw [phase_setPhase, phase_setCurrent]
    rfl
  | @announceBatch t _ _ => exact h.moved _ (phase_setPhase _ t · _) (by simp) hSame hOpen
  | @announce t _ _ _ _ => exact h.moved _ (phase_setPhase _ t · _) (by simp) hSame hOpen
  | @announceNone t _ _ _ _ => exact h.moved _ (phase_setPhase _ t · _) (by simp) hSame hOpen
  | @receive t _ _ _ _ _ _ _ => exact h.moved _ (phase_setPhase _ t · _) (by simp) hSame hOpen
  | @timeout t _ _ _ => exact h.moved _ (phase_setPhase _ t · _) (by simp) hSame hOpen
  | openPane _ _ _ _ => exact h.same (fun _ => rfl) hSame (List.subset_cons_self _ _)
  | @deliver id r todo _ =>
    obtain ⟨hThreads, hAsked, hOpened, -⟩ := deliver_kept s id r
    refine h.same (fun t' => ?_) ?_ ?_
    · show ((s.deliver id r).threads t').phase = _
      rw [hThreads]
    · show s.asked <+: (s.deliver id r).asked
      exact hAsked ▸ hSame
    · show s.opened ⊆ (s.deliver id r).opened
      rw [hOpened]
      exact hOpen
  | _ => exact h.same (fun _ => rfl) hSame hOpen

theorem Showing.of_pane (h : Showing s' k) (hAsked : s'.asked = s.asked)
    (hPane : ∀ childId q b, s.asked[k]? = some (childId, q) → s'.registered childId = some .canvas →
      s'.closing.map Prod.fst ≠ some childId → s'.paneStates childId = some b → .query (requestId k) q ∈ b.cmds →
      s.registered childId = some .canvas ∧ s.closing.map Prod.fst ≠ some childId ∧
        s.paneStates childId = some b) :
    Showing s k := by
  obtain ⟨childId, q, b, hk, hCanvas, hClosing, hBatch, hq⟩ := h
  rw [hAsked] at hk
  obtain ⟨hCanvas', hClosing', hBatch'⟩ := hPane childId q b hk hCanvas hClosing hBatch hq
  exact ⟨childId, q, b, hk, hCanvas', hClosing', hBatch', hq⟩

/-- What is lost stays lost. -/
theorem answerable_step (hSound : Sound s) (h : Submitted s k) (hStep : Step s s')
    (hIds : s'.asked.length ≤ 2 ^ 32) (hAfter : Answerable s' k) : Answerable s k := by
  obtain ⟨childIdOf, hOpenOf, qOf, hOf⟩ := h.opened
  have hChild {childId : Int} {q : Query Text Pt} (hk : s.asked[k]? = some (childId, q)) : childId = childIdOf := by
    rw [hOf] at hk
    exact (Prod.mk.inj (Option.some.inj hk)).1.symm
  cases hStep with
  | allocId childId q _ =>
    refine hAfter.imp_right fun hAfter => hAfter.imp_right ?_
    rintro ⟨childId', q', b, hk, hRest⟩
    refine ⟨childId', q', b, ?_, hRest⟩
    change (s.asked ++ [(childId, q)])[k]? = _ at hk
    rwa [List.getElem?_append_left (asked_lt hOf)] at hk
  | @submitQuery t k' childId' q' hPhase hAsked =>
    refine hAfter.imp_right fun hAfter => hAfter.imp_right fun hShowing => ?_
    refine hShowing.of_pane rfl fun childId q b hk hCanvas hClosing hBatch hq => ⟨hCanvas, hClosing, ?_⟩
    change Function.update s.paneStates childId' _ childId = some b at hBatch
    by_cases hEq : childId = childId'
    · rw [hEq, Function.update_self] at hBatch
      obtain rfl := Option.some.inj hBatch
      have hId := (SurfaceCmd.query.inj (List.mem_singleton.1 hq)).1
      have hSame := requestId_inj (Nat.lt_of_lt_of_le (asked_lt hOf) hIds)
        (Nat.lt_of_lt_of_le (asked_lt hAsked) hIds) hId
      rw [← hSame] at hPhase
      exact absurd hPhase (h.settled t).2
    · rwa [Function.update_of_ne hEq] at hBatch
  | @submitBatch t b _ hDraft =>
    refine hAfter.imp_right fun hAfter => hAfter.imp_right fun hShowing => ?_
    refine hShowing.of_pane rfl fun childId q b' hk hCanvas hClosing hBatch hq => ⟨hCanvas, hClosing, ?_⟩
    change Function.update s.paneStates b.childId _ childId = some b' at hBatch
    by_cases hEq : childId = b.childId
    · rw [hEq, Function.update_self] at hBatch
      obtain rfl := Option.some.inj hBatch
      exact absurd hq (hSound.drafts t b hDraft _ _)
    · rwa [Function.update_of_ne hEq] at hBatch
  | openPane childId' pane _ hNew =>
    refine hAfter.imp_right fun hAfter => hAfter.imp_right fun hShowing => ?_
    refine hShowing.of_pane rfl fun childId q b hk hCanvas hClosing hBatch hq => ⟨?_, hClosing, hBatch⟩
    change Function.update s.registered childId' _ childId = _ at hCanvas
    have hOther : childId ≠ childId' := by
      rintro rfl
      exact hNew (hChild hk ▸ hOpenOf)
    rwa [Function.update_of_ne hOther] at hCanvas
  | @paint childId b d d2d gdi hIdle hCanvas hBatch =>
    obtain hBox | hTodo | hShowing := hAfter
    · exact Or.inl hBox
    · obtain ⟨⟨id, r⟩, hReply, rfl⟩ := List.mem_map.1 hTodo
      obtain ⟨q, hq, -⟩ := mem_paintReplies hReply
      have hAsked := (hSound.batches childId b hBatch _ q hq).own hIds (asked_lt hOf)
      refine Or.inr (Or.inr ⟨childId, q, b, hAsked, hCanvas, ?_, hBatch, hq⟩)
      simp [hIdle.2]
    · exact Or.inr (Or.inr hShowing)
  | @deliver id r todo hTodo =>
    obtain ⟨-, hAsked, -, hRegistered, hPanes, hClosing⟩ := deliver_kept s id r
    obtain hBox | hRest | hShowing := hAfter
    · change ((s.deliver id r).boxes k).isSome = true at hBox
      unfold Screen.deliver at hBox
      cases hSlot : s.slots id with
      | none =>
        rw [hSlot] at hBox
        exact Or.inl hBox
      | some k' =>
        rw [hSlot] at hBox
        change (Function.update s.boxes k' (some r) k).isSome = true at hBox
        by_cases hEq : k = k'
        · refine Or.inr (Or.inl ?_)
          rw [hEq, hSound.slots id k' hSlot, hTodo]
          exact List.mem_cons_self
        · rw [Function.update_of_ne hEq] at hBox
          exact Or.inl hBox
    · refine Or.inr (Or.inl ?_)
      rw [hTodo]
      exact List.mem_cons_of_mem _ hRest
    · refine Or.inr (Or.inr (hShowing.of_pane hAsked ?_))
      intro childId q b _ hCanvas hNotClosing hBatch _
      change (s.deliver id r).registered childId = _ at hCanvas
      change (s.deliver id r).closing.map Prod.fst ≠ _ at hNotClosing
      change (s.deliver id r).paneStates childId = _ at hBatch
      rw [hRegistered] at hCanvas
      rw [hClosing] at hNotClosing
      rw [hPanes] at hBatch
      exact ⟨hCanvas, hNotClosing, hBatch⟩
  | @closePane childId' pane hIdle _ =>
    refine hAfter.imp_right fun hAfter => hAfter.imp_right fun hShowing => ?_
    refine hShowing.of_pane rfl fun childId q b hk hCanvas hClosing hBatch hq => ⟨hCanvas, ?_, hBatch⟩
    simp [hIdle.2]
  | @forget childId' hClosing' =>
    refine hAfter.imp_right fun hAfter => hAfter.imp_right fun hShowing => ?_
    refine hShowing.of_pane rfl fun childId q b hk hCanvas hClosing hBatch hq => ⟨hCanvas, ?_, ?_⟩
    · rw [hClosing']
      exact hClosing
    · change Function.update s.paneStates childId' none childId = some b at hBatch
      have hOther : childId ≠ childId' := by
        rintro rfl
        exact hClosing rfl
      rwa [Function.update_of_ne hOther] at hBatch
  | @unregister childId' hClosing' =>
    refine hAfter.imp_right fun hAfter => hAfter.imp_right fun hShowing => ?_
    refine hShowing.of_pane rfl fun childId q b hk hCanvas hClosing hBatch hq => ?_
    change Function.update s.registered childId' none childId = _ at hCanvas
    have hOther : childId ≠ childId' := by
      rintro rfl
      rw [Function.update_self] at hCanvas
      cases hCanvas
    rw [Function.update_of_ne hOther] at hCanvas
    refine ⟨hCanvas, ?_, hBatch⟩
    rw [hClosing', Option.map_some]
    exact fun hEq => hOther (Option.some.inj hEq).symm
  | _ => exact hAfter

theorem answerable_reaches {u : Screen Text Pt F} (hSound : Sound s) (h : Submitted s k) (hReaches : Reaches s u)
    (hIds : u.asked.length ≤ 2 ^ 32) (hAfter : Answerable u k) : Answerable s k := by
  induction hReaches using Relation.ReflTransGen.head_induction_on with
  | refl => exact hAfter
  | head hStep hRest ih =>
    have hLength : ∀ {v : Screen Text Pt F}, Reaches v u → v.asked.length ≤ 2 ^ 32 := by
      intro v hv
      refine Nat.le_trans ?_ hIds
      induction hv using Relation.ReflTransGen.head_induction_on with
      | refl => exact Nat.le_refl _
      | head hStep _ ih => exact Nat.le_trans (step_asked hStep).length_le ih
    exact answerable_step hSound h hStep (hLength hRest) (ih (hSound.step hStep) (h.step hStep))

/-! A run that brings the answer. -/

/-- What the deliveries of a paint leave as it is. -/
structure SameCalls (s u : Screen Text Pt F) : Prop where
  asked : u.asked = s.asked
  threads : u.threads = s.threads
  paneStates : u.paneStates = s.paneStates
  registered : u.registered = s.registered
  closing : u.closing = s.closing

/-- A delivery under the id of a call that has its slot fills its box; an answered call stays so. -/
theorem deliver_box {id : Nat} {r : Reply F} (hSlot : s.slots (requestId k) = some k ∨ (s.boxes k).isSome)
    (h : requestId k = id ∨ (s.boxes k).isSome) : ((s.deliver id r).boxes k).isSome := by
  have hKept (hBox : (s.boxes k).isSome) : ((s.deliver id r).boxes k).isSome := by
    unfold Screen.deliver
    split
    · rename_i k' _
      by_cases hEq : k = k'
      · show (Function.update s.boxes k' (some r) k).isSome = true
        rw [hEq, Function.update_self]
        rfl
      · show (Function.update s.boxes k' (some r) k).isSome = true
        rwa [Function.update_of_ne hEq]
    · exact hBox
  obtain rfl | hBox := h
  · obtain hSlot | hBox := hSlot
    · unfold Screen.deliver
      rw [hSlot]
      show (Function.update s.boxes k (some r) k).isSome = true
      rw [Function.update_self]
      rfl
    · exact hKept hBox
  · exact hKept hBox

/-- The GUI thread comes to the end of its deliveries, and the call that is among them has its answer. -/
theorem drain (hSlot : s.slots (requestId k) = some k ∨ (s.boxes k).isSome) :
    ∃ u, Reaches s u ∧ u.todo = [] ∧ SameCalls s u ∧ (u.slots (requestId k) = some k ∨ (u.boxes k).isSome) ∧
      (requestId k ∈ s.todo.map Prod.fst ∨ (s.boxes k).isSome → (u.boxes k).isSome) := by
  generalize hTodo : s.todo = todo
  induction todo generalizing s with
  | nil =>
    refine ⟨s, .refl, hTodo, ⟨rfl, rfl, rfl, rfl, rfl⟩, hSlot, fun h => ?_⟩
    obtain hMem | hBox := h
    · cases hMem
    · exact hBox
  | cons p todo ih =>
    obtain ⟨id, r⟩ := p
    have hStep : Step s { s.deliver id r with todo := todo } := .deliver hTodo
    obtain ⟨u, hReaches, hDone, hSame, hSlot', hBox⟩ :=
      ih (s := { s.deliver id r with todo := todo }) (deliver_slotted id r hSlot) rfl
    obtain ⟨hThreads, hAsked, -, hRegistered, hPanes, hClosing⟩ := deliver_kept s id r
    refine ⟨u, .head hStep hReaches, hDone, ⟨hSame.asked.trans hAsked, hSame.threads.trans hThreads,
      hSame.paneStates.trans hPanes, hSame.registered.trans hRegistered, hSame.closing.trans hClosing⟩, hSlot',
      fun h => hBox ?_⟩
    obtain hMem | hAnswered := h
    · obtain hFirst | hRest := List.mem_cons.1 hMem
      · exact Or.inr (deliver_box hSlot (Or.inl hFirst))
      · exact Or.inl hRest
    · exact Or.inr (deliver_box hSlot (Or.inr hAnswered))

/-- A canvas that shows the batch of a call is painted, and the call has its answer. -/
theorem paint_answers (hSlot : s.slots (requestId k) = some k ∨ (s.boxes k).isSome) (hIdle : s.todo = [])
    (hClosing : s.closing = none) (hShowing : Showing s k) :
    ∃ u, Reaches s u ∧ u.asked = s.asked ∧ u.threads = s.threads ∧ (u.boxes k).isSome := by
  obtain ⟨childId, q, b, hk, hCanvas, -, hBatch, hq⟩ := hShowing
  -- whatever DirectWrite says is an answer
  let d : DWrite Text Pt F := ⟨fun _ => .error "", fun _ _ => .error "", fun _ _ => .error ""⟩
  have hStep : Step s { s with todo := paintReplies d b.cmds none none, layouts := d :: s.layouts } :=
    .paint d none none ⟨hIdle, hClosing⟩ hCanvas hBatch
  obtain ⟨u, hReaches, -, hSame, -, hBox⟩ := drain
    (s := { s with todo := paintReplies d b.cmds none none, layouts := d :: s.layouts }) hSlot
  refine ⟨u, .head hStep hReaches, hSame.asked, hSame.threads, hBox (Or.inl ?_)⟩
  exact List.mem_map.2 ⟨(requestId k, d.answer q), List.mem_filterMap.2 ⟨_, hq, rfl⟩, rfl⟩

/-- The GUI thread comes to the end of the pane that it closes, which is another one. -/
theorem close_done (hShowing : Showing s k) :
    ∃ u, Reaches s u ∧ u.asked = s.asked ∧ u.threads = s.threads ∧ u.slots = s.slots ∧ u.boxes = s.boxes ∧
      u.todo = s.todo ∧ u.closing = none ∧ Showing u k := by
  have hUnregister {s : Screen Text Pt F} {other : Int} (hShowing : Showing s k)
      (hClosing : s.closing = some (other, true)) :
      Step s { s with registered := Function.update s.registered other none, closing := none } ∧
        Showing { s with registered := Function.update s.registered other none, closing := none } k := by
    refine ⟨.unregister hClosing, hShowing.of_pane rfl fun childId q b _ hCanvas hNot hBatch _ => ⟨?_, by simp, hBatch⟩⟩
    have hOther : childId ≠ other := by
      rintro rfl
      exact hNot (by rw [hClosing]; rfl)
    show Function.update s.registered other none childId = _
    rwa [Function.update_of_ne hOther]
  cases hClosing : s.closing with
  | none => exact ⟨s, .refl, rfl, rfl, rfl, rfl, rfl, hClosing, hShowing⟩
  | some p =>
    obtain ⟨other, forgotten⟩ := p
    cases forgotten with
    | true =>
      obtain ⟨hStep, hShowing'⟩ := hUnregister hShowing hClosing
      exact ⟨_, .single hStep, rfl, rfl, rfl, rfl, rfl, rfl, hShowing'⟩
    | false =>
      have hForget : Step s { s with paneStates := Function.update s.paneStates other none,
                                     closing := some (other, true) } := .forget hClosing
      have hStill : Showing { s with paneStates := Function.update s.paneStates other none,
                                     closing := some (other, true) } k := by
        refine hShowing.of_pane rfl fun childId q b _ hCanvas hNot hBatch _ => ?_
        rw [hClosing] at hNot
        refine ⟨hCanvas, hNot, ?_⟩
        have hOther : childId ≠ other := by
          rintro rfl
          exact hNot rfl
        show Function.update s.paneStates other none childId = _
        rwa [Function.update_of_ne hOther]
      obtain ⟨hStep, hShowing'⟩ := hUnregister hStill rfl
      exact ⟨_, .tail (.single hForget) hStep, rfl, rfl, rfl, rfl, rfl, rfl, hShowing'⟩

theorem answerable_answered (hSlot : s.slots (requestId k) = some k ∨ (s.boxes k).isSome)
    (h : Answerable s k) : ∃ u, Reaches s u ∧ u.asked = s.asked ∧ u.threads = s.threads ∧ (u.boxes k).isSome := by
  obtain hBox | hTodo | hShowing := h
  · exact ⟨s, .refl, rfl, rfl, hBox⟩
  · obtain ⟨u, hReaches, -, hSame, -, hBox⟩ := drain hSlot
    exact ⟨u, hReaches, hSame.asked, hSame.threads, hBox (Or.inl hTodo)⟩
  · obtain ⟨u, hReaches, hDone, hSame, hSlot', -⟩ := drain hSlot
    have hShowing' : Showing u k := by
      refine Showing.of_pane hShowing hSame.asked.symm fun childId q b _ hCanvas hClosing hBatch _ => ?_
      rw [hSame.registered, hSame.closing, hSame.paneStates]
      exact ⟨hCanvas, hClosing, hBatch⟩
    obtain ⟨v, hClose, hAsked, hThreads, hSlots, hBoxes, hTodo, hClosing, hShowing''⟩ := close_done hShowing'
    rw [← hSlots, ← hBoxes] at hSlot'
    obtain ⟨w, hPaint, hAsked', hThreads', hBox⟩ := paint_answers hSlot' (hTodo.trans hDone) hClosing hShowing''
    exact ⟨w, (hReaches.trans hClose).trans hPaint, hAsked'.trans (hAsked.trans hSame.asked),
      hThreads'.trans (hThreads.trans hSame.threads), hBox⟩

end Answerable

/-- A call that waits can get an answer, in some continuation, exactly when the answer is there or about to be
delivered, or the canvas that it asked still shows the batch that it submitted: a batch that replaces it before
the paint, or a pane that closes, loses the query, and only the timeout ends the call. -/
theorem waiting_answerable_iff {s : Screen Text Pt F} (h : Reaches .start s) (hIds : s.asked.length ≤ 2 ^ 32)
    {t k : Nat} (hWait : (s.threads t).phase = .waiting k) :
    (∃ u, Reaches s u ∧ u.asked.length ≤ 2 ^ 32 ∧ (u.threads t).phase = .waiting k ∧ (u.boxes k).isSome) ↔
      Answerable s k := by
  have hTracked := Tracked.reaches h hIds
  constructor
  · rintro ⟨u, hReaches, hBound, -, hBox⟩
    exact answerable_reaches (Sound.reaches h) (hTracked.submitted hWait) hReaches hBound (Or.inl hBox)
  · intro hAnswerable
    obtain ⟨u, hReaches, hAsked, hThreads, hBox⟩ :=
      answerable_answered (hTracked.slotted t k (by rw [hWait]; rfl)) hAnswerable
    refine ⟨u, hReaches, ?_, ?_, hBox⟩
    · rw [hAsked]
      exact hIds
    · rw [hThreads]
      exact hWait

/-! One call to a canvas, with numbers for the measures of a text. -/

/-- Thread 0 has asked the canvas 2 and waits. -/
theorem waiting_run : ∃ s : Screen Unit Unit Nat, Reaches .start s ∧ s.asked = [(2, .measureTextRun ())] ∧
    (s.threads 0).phase = .waiting 0 ∧ s.todo = [] ∧ s.closing = none ∧ s.registered 2 = some .canvas ∧
    s.slots (requestId 0) = some 0 ∧ s.boxes = (fun _ => none) ∧ s.threads 1 = ⟨none, .idle⟩ ∧
    s.paneStates 2 = some ⟨2, 1, 0, [.query (requestId 0) (.measureTextRun ())]⟩ ∧ s.returned = [] := by
  refine ⟨_, .tail (.tail (.tail (.tail (.tail .refl (.openPane 2 .canvas ⟨rfl, rfl⟩ List.not_mem_nil))
    (.allocId (t := 0) 2 (.measureTextRun ()) rfl)) (.install (t := 0) rfl)) (.submitQuery (t := 0) rfl rfl))
    (.announce (t := 0) rfl rfl), rfl, rfl, rfl, rfl, rfl, rfl, rfl, rfl, rfl, rfl⟩

/-- A layout in which every text is 7 wide. -/
def sevenWide : DWrite Unit Unit Nat := ⟨fun _ => .ok (7, 2, 1, 1), fun _ _ => .ok (0, true, false), fun _ _ => .ok (0, 0, 2)⟩

theorem returned_own_run : ∃ s : Screen Unit Unit Nat, (0, some (.metrics 7 2 1 1)) ∈ s.returned ∧
    ∃ childId q, s.asked[0]? = some (childId, q) ∧ ∃ d ∈ s.layouts, .metrics 7 2 1 1 = d.answer q := by
  obtain ⟨s, hReaches, hAsked, hWait, hTodo, hClosing, hCanvas, hSlot, -, -, hBatch, hNone⟩ := waiting_run
  have hPaint := hReaches.tail (.paint sevenWide none none ⟨hTodo, hClosing⟩ hCanvas hBatch)
  have hDeliver := hPaint.tail (.deliver (show _ = [(requestId 0, .metrics 7 2 1 1)] from rfl))
  unfold Screen.deliver at hDeliver
  simp only [hSlot] at hDeliver
  have hCall : s.asked[0]? = some (2, .measureTextRun ()) := by
    rw [hAsked]
    rfl
  have hBox : Function.update s.boxes 0 (some (.metrics 7 2 1 1)) 0 = some (.metrics 7 2 1 1) := by
    simp only [Function.update_self]
  have hReceive := hDeliver.tail (.receive hWait hCall hBox)
  have hReturned := List.mem_append_right s.returned (List.mem_singleton_self (0, some (Reply.metrics 7 2 1 1)))
  exact ⟨_, hReturned, returned_own hReceive (by simp [Screen.setPhase, Screen.giveBack, hAsked]) hReturned⟩

/-- Another thread draws on the canvas before it is painted. -/
theorem overdrawn_run : ∃ s : Screen Unit Unit Nat, Reaches .start s ∧ s.asked = [(2, .measureTextRun ())] ∧
    (s.threads 0).phase = .waiting 0 ∧ s.todo = [] ∧ s.boxes 0 = none ∧ s.paneStates 2 = some ⟨2, 2, 0, []⟩ := by
  refine ⟨_, .tail (.tail (.tail (.tail (.tail (.tail (.tail .refl
    (.openPane 2 .canvas ⟨rfl, rfl⟩ List.not_mem_nil))
    (.allocId (t := 0) 2 (.measureTextRun ()) rfl)) (.install (t := 0) rfl)) (.submitQuery (t := 0) rfl rfl))
    (.announce (t := 0) rfl rfl)) (.beginBatch (t := 1) 2 rfl)) (.submitBatch (t := 1) rfl rfl),
    rfl, rfl, rfl, rfl, rfl⟩

/-- The query is lost. -/
theorem waiting_answerable_overdrawn : ∃ s : Screen Unit Unit Nat, (s.threads 0).phase = .waiting 0 ∧
    ¬ ∃ u, Reaches s u ∧ u.asked.length ≤ 2 ^ 32 ∧ (u.threads 0).phase = .waiting 0 ∧ (u.boxes 0).isSome := by
  obtain ⟨s, hReaches, hAsked, hWait, hTodo, hBox, hBatch⟩ := overdrawn_run
  refine ⟨s, hWait, fun hAnswered => ?_⟩
  obtain hSome | hMem | ⟨childId, q, b, hk, -, -, hShown, hq⟩ :=
    (waiting_answerable_iff hReaches (by simp [hAsked]) hWait).1 hAnswered
  · rw [hBox] at hSome
    cases hSome
  · rw [hTodo] at hMem
    cases hMem
  · rw [hAsked] at hk
    cases hk
    rw [hBatch] at hShown
    cases hShown
    cases hq

end FactorForth.Gui.TextQuery
