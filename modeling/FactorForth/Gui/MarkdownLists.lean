import FactorForth.Gui.MarkdownText

/-! How many lists the help viewer's parser finds. A list that starts inside an item of another is passed
over, so a document with one has fewer list blocks than lists. -/

namespace FactorForth.Gui
open FactorForth.Library

def isListStart : Event → Bool
  | .start (.list _) => true
  | _ => false

def listStarts (es : List Event) : Nat := es.countP isListStart

/-- No list starts between the start of a list and the next end of one. -/
def clear : (inList : Bool) → List Event → Bool
  | _, [] => true
  | inList, e :: es =>
    if isListStart e then !inList && clear true es
    else if isListEnd e then clear false es
    else clear inList es

theorem clear_mono {es : List Event} (h : clear true es = true) : clear false es = true := by
  induction es with
  | nil => rfl
  | cons e es ih =>
    unfold clear at h ⊢
    by_cases hStart : isListStart e = true
    · rw [if_pos hStart] at h
      cases h
    · rw [if_neg hStart] at h ⊢
      by_cases hEnd : isListEnd e = true
      · rwa [if_pos hEnd] at h ⊢
      · rw [if_neg hEnd] at h ⊢
        exact ih h

/-! Documents. -/

/-- Events that neither start nor end a list. -/
def Plain (es : List Event) : Prop := ∀ e ∈ es, isListStart e = false ∧ isListEnd e = false

namespace Plain

theorem nil : Plain [] := fun _ he => absurd he List.not_mem_nil

theorem cons {e : Event} {es : List Event} (hStart : isListStart e = false) (hEnd : isListEnd e = false)
    (h : Plain es) : Plain (e :: es) := by
  intro e' he
  rcases List.mem_cons.mp he with rfl | he
  · exact ⟨hStart, hEnd⟩
  · exact h e' he

theorem append {es es' : List Event} (h : Plain es) (h' : Plain es') : Plain (es ++ es') := by
  intro e he
  rcases List.mem_append.mp he with he | he
  · exact h e he
  · exact h' e he

theorem flatMap {α : Type} {f : α → List Event} (h : ∀ a, Plain (f a)) (xs : List α) :
    Plain (xs.flatMap f) := by
  intro e he
  obtain ⟨x, -, he⟩ := List.mem_flatMap.mp he
  exact h x e he

theorem map {α : Type} {f : α → Event} (h : ∀ a, isListStart (f a) = false ∧ isListEnd (f a) = false)
    (xs : List α) : Plain (xs.map f) := by
  intro e he
  obtain ⟨x, -, rfl⟩ := List.mem_map.mp he
  exact h x

theorem inlines (tree : Inlines) : Plain tree.events := by
  induction tree with
  | nil => exact nil
  | span kind body rest ihBody ihRest =>
    have hRest : Plain (.stop kind.tagEnd :: rest.events) := by
      cases kind <;> exact ihRest.cons rfl rfl
    cases kind <;> exact (ihBody.append hRest).cons rfl rfl
  | _ => exact cons rfl rfl (by assumption)

theorem cell (tree : Inlines) : Plain (cellEvents tree) :=
  ((inlines tree).append (nil.cons rfl rfl)).cons rfl rfl

theorem row (trees : List Inlines) : Plain (rowEvents trees) :=
  ((flatMap cell trees).append (nil.cons rfl rfl)).cons rfl rfl

theorem table (head : List Inlines) (rows : List (List Inlines)) : Plain (tableEvents head rows) :=
  ((flatMap cell head).append ((flatMap row rows).cons rfl rfl)).cons rfl rfl

variable {es : List Event}

theorem starts (h : Plain es) : listStarts es = 0 :=
  List.countP_eq_zero.mpr fun e he => by simp [(h e he).1]

theorem clear_append (h : Plain es) (inList : Bool) (more : List Event) :
    clear inList (es ++ more) = clear inList more := by
  induction es with
  | nil => rfl
  | cons e es ih =>
    obtain ⟨hStart, hEnd⟩ := h e List.mem_cons_self
    rw [List.cons_append, clear, hStart, hEnd]
    exact ih fun e he => h e (List.mem_cons_of_mem _ he)

end Plain

theorem listStarts_cons (e : Event) (es : List Event) :
    listStarts (e :: es) = listStarts es + if isListStart e then 1 else 0 := List.countP_cons

theorem listStarts_append (es es' : List Event) :
    listStarts (es ++ es') = listStarts es + listStarts es' := List.countP_append

theorem listStarts_bracket {first stop : Event} (hFirst : isListStart first = false)
    (hStop : isListStart stop = false) (body rest : List Event) :
    listStarts (first :: (body ++ stop :: rest)) = listStarts body + listStarts rest := by
  rw [listStarts_cons, listStarts_append, listStarts_cons, hFirst, hStop]
  rfl

theorem clear_bracket {first stop : Event} {inList : Bool} {body : List Event} (rest more : List Event)
    (hFirst : isListStart first = false) (hFirstEnd : isListEnd first = false)
    (hStop : isListStart stop = false) (hStopEnd : isListEnd stop = false) (hBody : Plain body) :
    clear inList ((first :: (body ++ stop :: rest)) ++ more) = clear inList (rest ++ more) := by
  rw [List.cons_append, List.append_assoc, List.cons_append]
  have hOpen := (Plain.nil.cons hFirst hFirstEnd).append (hBody.append (Plain.nil.cons hStop hStopEnd))
  have hClear := hOpen.clear_append inList (rest ++ more)
  simpa using hClear

mutual

theorem Blocks.lists_length : (tree : Blocks) → tree.lists.length = listStarts tree.events
  | .nil => rfl
  | .heading level body rest => by
    rw [Blocks.events, listStarts_bracket rfl rfl, (Plain.inlines body).starts, Nat.zero_add]
    exact Blocks.lists_length rest
  | .paragraph body rest => by
    rw [Blocks.events, listStarts_bracket rfl rfl, (Plain.inlines body).starts, Nat.zero_add]
    exact Blocks.lists_length rest
  | .code kind texts rest => by
    rw [Blocks.events, listStarts_bracket rfl rfl, (Plain.map (fun _ => ⟨rfl, rfl⟩) texts).starts,
      Nat.zero_add]
    exact Blocks.lists_length rest
  | .html texts rest => by
    rw [Blocks.events, listStarts_bracket rfl rfl, (Plain.map (fun _ => ⟨rfl, rfl⟩) texts).starts,
      Nat.zero_add]
    exact Blocks.lists_length rest
  | .quote kind body rest => by
    rw [Blocks.events, listStarts_bracket rfl rfl, Blocks.lists, List.length_append,
      Blocks.lists_length body, Blocks.lists_length rest]
  | .list start items rest => by
    rw [Blocks.events, listStarts_cons, listStarts_append, listStarts_cons, Blocks.lists,
      List.length_cons, List.length_append, Items.lists_length items, Blocks.lists_length rest]
    rfl
  | .table aligns head rows _ rest => by
    rw [Blocks.events, listStarts_bracket rfl rfl, (Plain.table head rows).starts, Nat.zero_add]
    exact Blocks.lists_length rest
  | .rule rest => Blocks.lists_length rest

theorem Items.lists_length : (tree : Items) → tree.lists.length = listStarts tree.events
  | .nil => rfl
  | .item parts rest => by
    rw [Items.events, listStarts_bracket rfl rfl, Items.lists, List.length_append,
      Parts.lists_length parts, Items.lists_length rest]

theorem Parts.lists_length : (tree : Parts) → tree.lists.length = listStarts tree.events
  | .nil => rfl
  | .inlines body rest => by
    rw [Parts.events, listStarts_append, (Plain.inlines body).starts, Nat.zero_add]
    exact Parts.lists_length rest
  | .blocks body rest => by
    rw [Parts.events, listStarts_append, Parts.lists, List.length_append, Blocks.lists_length body,
      Parts.lists_length rest]

end

mutual

theorem Blocks.noLists_of_clear : (tree : Blocks) → {more : List Event} →
    clear true (tree.events ++ more) = true → tree.NoLists ∧ clear true more = true
  | .nil, _, h => ⟨trivial, h⟩
  | .heading level body rest, _, h => by
    rw [Blocks.events, clear_bracket _ _ rfl rfl rfl rfl (Plain.inlines body)] at h
    exact Blocks.noLists_of_clear rest h
  | .paragraph body rest, _, h => by
    rw [Blocks.events, clear_bracket _ _ rfl rfl rfl rfl (Plain.inlines body)] at h
    exact Blocks.noLists_of_clear rest h
  | .code kind texts rest, _, h => by
    rw [Blocks.events, clear_bracket _ _ rfl rfl rfl rfl (Plain.map (fun _ => ⟨rfl, rfl⟩) texts)] at h
    exact Blocks.noLists_of_clear rest h
  | .html texts rest, _, h => by
    rw [Blocks.events, clear_bracket _ _ rfl rfl rfl rfl (Plain.map (fun _ => ⟨rfl, rfl⟩) texts)] at h
    exact Blocks.noLists_of_clear rest h
  | .quote kind body rest, _, h => by
    rw [Blocks.events, List.cons_append, List.append_assoc] at h
    obtain ⟨hBody, hRest⟩ := Blocks.noLists_of_clear body h
    obtain ⟨hRest, hMore⟩ := Blocks.noLists_of_clear rest hRest
    exact ⟨⟨hBody, hRest⟩, hMore⟩
  | .list start items rest, _, h => by cases h
  | .table aligns head rows _ rest, _, h => by
    rw [Blocks.events, clear_bracket _ _ rfl rfl rfl rfl (Plain.table head rows)] at h
    exact Blocks.noLists_of_clear rest h
  | .rule rest, _, h => Blocks.noLists_of_clear rest h

theorem Parts.noLists_of_clear : (tree : Parts) → {more : List Event} →
    clear true (tree.events ++ more) = true → tree.NoLists ∧ clear true more = true
  | .nil, _, h => ⟨trivial, h⟩
  | .inlines body rest, _, h => by
    rw [Parts.events, List.append_assoc, (Plain.inlines body).clear_append] at h
    exact Parts.noLists_of_clear rest h
  | .blocks body rest, _, h => by
    rw [Parts.events, List.append_assoc] at h
    obtain ⟨hBody, hRest⟩ := Blocks.noLists_of_clear body h
    obtain ⟨hRest, hMore⟩ := Parts.noLists_of_clear rest hRest
    exact ⟨⟨hBody, hRest⟩, hMore⟩

end

theorem Items.noLists_of_clear : (tree : Items) → {more : List Event} →
    clear true (tree.events ++ more) = true → tree.NoLists ∧ clear true more = true
  | .nil, _, h => ⟨trivial, h⟩
  | .item parts rest, _, h => by
    rw [Items.events, List.cons_append, List.append_assoc] at h
    obtain ⟨hParts, hRest⟩ := parts.noLists_of_clear h
    obtain ⟨hRest, hMore⟩ := noLists_of_clear rest hRest
    exact ⟨⟨hParts, hRest⟩, hMore⟩

theorem Blocks.flat_of_clear : (tree : Blocks) → {more : List Event} →
    clear false (tree.events ++ more) = true → tree.Flat ∧ clear false more = true
  | .nil, _, h => ⟨trivial, h⟩
  | .heading level body rest, _, h => by
    rw [Blocks.events, clear_bracket _ _ rfl rfl rfl rfl (Plain.inlines body)] at h
    exact flat_of_clear rest h
  | .paragraph body rest, _, h => by
    rw [Blocks.events, clear_bracket _ _ rfl rfl rfl rfl (Plain.inlines body)] at h
    exact flat_of_clear rest h
  | .code kind texts rest, _, h => by
    rw [Blocks.events, clear_bracket _ _ rfl rfl rfl rfl (Plain.map (fun _ => ⟨rfl, rfl⟩) texts)] at h
    exact flat_of_clear rest h
  | .html texts rest, _, h => by
    rw [Blocks.events, clear_bracket _ _ rfl rfl rfl rfl (Plain.map (fun _ => ⟨rfl, rfl⟩) texts)] at h
    exact flat_of_clear rest h
  | .quote kind body rest, _, h => by
    rw [Blocks.events, List.cons_append, List.append_assoc] at h
    obtain ⟨hBody, hRest⟩ := flat_of_clear body h
    obtain ⟨hRest, hMore⟩ := flat_of_clear rest hRest
    exact ⟨⟨hBody, hRest⟩, hMore⟩
  | .list start items rest, _, h => by
    rw [Blocks.events, List.cons_append, List.append_assoc] at h
    obtain ⟨hItems, hEnd⟩ := items.noLists_of_clear h
    obtain ⟨hRest, hMore⟩ := flat_of_clear rest hEnd
    exact ⟨⟨hItems, hRest⟩, hMore⟩
  | .table aligns head rows _ rest, _, h => by
    rw [Blocks.events, clear_bracket _ _ rfl rfl rfl rfl (Plain.table head rows)] at h
    exact flat_of_clear rest h
  | .rule rest, _, h => flat_of_clear rest h

/-! The parser. -/

section Parser
variable {events : List LocatedEvent} {pos mid last : Nat}

def ahead (events : List LocatedEvent) (pos : Nat) : List Event := (events.drop pos).map (·.event)

theorem ahead_cons {at_ : LocatedEvent} (hAt : events[pos]? = some at_) :
    ahead events pos = at_.event :: ahead events (pos + 1) := by
  obtain ⟨hLt, rfl⟩ := List.getElem?_eq_some_iff.mp hAt
  rw [ahead, List.drop_eq_getElem_cons hLt]
  rfl

theorem ahead_nil (hAt : events[pos]? = none) : ahead events pos = [] := by
  rw [ahead, List.drop_eq_nil_of_le (List.getElem?_eq_none_iff.mp hAt)]
  rfl

/-- From `pos` to `last` a consumer takes no list, and a list that it passes over is missing in the end. -/
structure Passes (events : List LocatedEvent) (pos last : Nat) : Prop where
  starts : listStarts (ahead events last) ≤ listStarts (ahead events pos)
  clear : listStarts (ahead events last) = listStarts (ahead events pos) → ∀ inList,
    clear inList (ahead events last) = true → clear inList (ahead events pos) = true

namespace Passes

theorem refl (pos : Nat) : Passes events pos pos := ⟨Nat.le_refl _, fun _ _ h => h⟩

theorem trans (h : Passes events pos mid) (h' : Passes events mid last) : Passes events pos last := by
  refine ⟨Nat.le_trans h'.starts h.starts, fun hSame inList hClear => ?_⟩
  have hMid : listStarts (ahead events last) = listStarts (ahead events mid) :=
    Nat.le_antisymm h'.starts (hSame ▸ h.starts)
  exact h.clear (hMid ▸ hSame) inList (h'.clear hMid inList hClear)

theorem one {at_ : LocatedEvent} (hAt : events[pos]? = some at_) : Passes events pos (pos + 1) := by
  constructor
  · rw [ahead_cons hAt, listStarts_cons]
    exact Nat.le_add_right _ _
  · rw [ahead_cons hAt, listStarts_cons]
    intro hSame inList hClear
    by_cases hStart : isListStart at_.event = true
    · rw [if_pos hStart] at hSame
      exact absurd hSame.symm (Nat.succ_ne_self _)
    · rw [Gui.clear, if_neg hStart]
      by_cases hEnd : isListEnd at_.event = true
      · rw [if_pos hEnd]
        cases inList with
        | false => exact hClear
        | true => exact clear_mono hClear
      · rwa [if_neg hEnd]

theorem cons {at_ : LocatedEvent} (hAt : events[pos]? = some at_) (h : Passes events (pos + 1) last) :
    Passes events pos last := (one hAt).trans h

end Passes

theorem inlines_pass (fuel : Nat) :
    (∀ {pos last : Nat} {stop : TagEnd} {inlines : List Inline},
      parseInlines events fuel pos stop = some (inlines, last) → Passes events pos last) ∧
    (∀ {pos last : Nat} {at_ : LocatedEvent} {i : Option Inline}, events[pos]? = some at_ →
      parseOneInline events fuel pos at_.event = some (i, last) → Passes events pos last) := by
  induction fuel with
  | zero =>
    constructor
    · intro pos last stop inlines h
      cases h
    · intro pos last at_ i _ h
      cases h
  | succ fuel ih =>
    obtain ⟨ihInlines, ihOne⟩ := ih
    constructor
    · intro pos last stop inlines h
      unfold parseInlines at h
      split at h
      · cases h
        exact Passes.refl pos
      · rename_i at_ hAt
        split at h
        · cases h
          exact Passes.one hAt
        · obtain ⟨⟨i, mid⟩, hOne, h⟩ := Option.bind_eq_some_iff.mp h
          obtain ⟨⟨more, _⟩, hMore, h⟩ := Option.map_eq_some_iff.mp h
          cases h
          exact (ihOne hAt hOne).trans (ihInlines hMore)
    · intro pos last at_ i hAt h
      unfold parseOneInline at h
      split at h
      case h_5 | h_6 | h_7 | h_8 =>
        obtain ⟨⟨inner, _⟩, hInner, h⟩ := Option.map_eq_some_iff.mp h
        cases h
        exact (ihInlines hInner).cons hAt
      all_goals
        cases h
        exact Passes.one hAt

theorem item_passes {fuel : Nat} {inlines : List Inline}
    (h : collectItemInlines events fuel pos = some (inlines, last)) : Passes events pos last := by
  induction fuel generalizing pos last inlines with
  | zero => cases h
  | succ fuel ih =>
    unfold collectItemInlines at h
    split at h
    · cases h
      exact Passes.refl pos
    · rename_i at_ hAt
      split at h
      · cases h
        exact Passes.one hAt
      · split at h
        · obtain ⟨⟨inner, mid⟩, hInner, h⟩ := Option.bind_eq_some_iff.mp h
          obtain ⟨⟨more, _⟩, hMore, h⟩ := Option.map_eq_some_iff.mp h
          cases h
          exact (((inlines_pass fuel).1 hInner).trans (ih hMore)).cons hAt
        · obtain ⟨⟨i, mid⟩, hOne, h⟩ := Option.bind_eq_some_iff.mp h
          obtain ⟨⟨more, _⟩, hMore, h⟩ := Option.map_eq_some_iff.mp h
          cases h
          exact ((inlines_pass fuel).2 hAt hOne).trans (ih hMore)

theorem cells_pass {fuel : Nat} {stop : TagEnd} {cells : List (List Inline)}
    (h : parseTableRowInlines events fuel pos stop = some (cells, last)) : Passes events pos last := by
  induction fuel generalizing pos last cells with
  | zero => cases h
  | succ fuel ih =>
    unfold parseTableRowInlines at h
    split at h
    · cases h
      exact Passes.refl pos
    · rename_i at_ hAt
      split at h
      · cases h
        exact Passes.one hAt
      · split at h
        · obtain ⟨⟨cell, mid⟩, hCell, h⟩ := Option.bind_eq_some_iff.mp h
          obtain ⟨⟨more, _⟩, hMore, h⟩ := Option.map_eq_some_iff.mp h
          cases h
          exact (((inlines_pass fuel).1 hCell).trans (ih hMore)).cons hAt
        · exact (ih h).cons hAt

theorem rows_pass {fuel : Nat} {headers : List (List Inline)} {rows : List (List (List Inline))}
    {parsed : List (List Inline) × List (List (List Inline))}
    (h : parseTableRows events fuel pos headers rows = some (parsed, last)) : Passes events pos last := by
  induction fuel generalizing pos last headers rows with
  | zero => cases h
  | succ fuel ih =>
    unfold parseTableRows at h
    split at h
    · cases h
      exact Passes.refl pos
    · rename_i at_ hAt
      split at h
      · cases h
        exact Passes.one hAt
      split at h
      · obtain ⟨⟨cells, mid⟩, hCells, h⟩ := Option.bind_eq_some_iff.mp h
        exact ((cells_pass hCells).trans (ih h)).cons hAt
      split at h
      · obtain ⟨⟨cells, mid⟩, hCells, h⟩ := Option.bind_eq_some_iff.mp h
        exact ((cells_pass hCells).trans (ih h)).cons hAt
      · exact (ih h).cons hAt

theorem code_passes {fuel : Nat} {code : List Char}
    (h : parseCode events fuel pos = some (code, last)) : Passes events pos last := by
  induction fuel generalizing pos last code with
  | zero => cases h
  | succ fuel ih =>
    unfold parseCode at h
    split at h
    · cases h
      exact Passes.refl pos
    · rename_i at_ hAt
      split at h
      · obtain ⟨⟨more, _⟩, hMore, h⟩ := Option.map_eq_some_iff.mp h
        cases h
        exact (ih hMore).cons hAt
      · cases h
        exact Passes.one hAt
      · exact (ih h).cons hAt

/-- The items of one list end behind the next end of a list. -/
theorem items_pass {fuel : Nat} {items : List (List Inline)}
    (h : parseListItems events fuel pos = some (items, last)) :
    listStarts (ahead events last) ≤ listStarts (ahead events pos) ∧
      (listStarts (ahead events last) = listStarts (ahead events pos) →
        clear false (ahead events last) = true → clear true (ahead events pos) = true) := by
  -- what is passed over in front of the rest of the items
  have hThen : ∀ {pos mid last : Nat}, Passes events pos mid →
      (listStarts (ahead events last) ≤ listStarts (ahead events mid) ∧
        (listStarts (ahead events last) = listStarts (ahead events mid) →
          clear false (ahead events last) = true → clear true (ahead events mid) = true)) →
      listStarts (ahead events last) ≤ listStarts (ahead events pos) ∧
        (listStarts (ahead events last) = listStarts (ahead events pos) →
          clear false (ahead events last) = true → clear true (ahead events pos) = true) := by
    intro pos mid last hPass hRest
    refine ⟨Nat.le_trans hRest.1 hPass.starts, fun hSame hClear => ?_⟩
    have hMid : listStarts (ahead events last) = listStarts (ahead events mid) :=
      Nat.le_antisymm hRest.1 (hSame ▸ hPass.starts)
    exact hPass.clear (hMid ▸ hSame) true (hRest.2 hMid hClear)
  induction fuel generalizing pos last items with
  | zero => cases h
  | succ fuel ih =>
    unfold parseListItems at h
    split at h
    · rename_i hAt
      cases h
      rw [ahead_nil hAt]
      exact ⟨Nat.le_refl _, fun _ _ => rfl⟩
    · rename_i at_ hAt
      split at h
      · rename_i hEnd
        cases h
        refine ⟨(Passes.one hAt).starts, fun hSame hClear => ?_⟩
        rw [ahead_cons hAt, clear]
        split
        · rename_i hStart
          rw [ahead_cons hAt, listStarts_cons, if_pos hStart] at hSame
          exact absurd hSame.symm (Nat.succ_ne_self _)
        · exact hClear
      split at h
      · obtain ⟨⟨item, mid⟩, hItem, h⟩ := Option.bind_eq_some_iff.mp h
        obtain ⟨⟨more, _⟩, hMore, h⟩ := Option.map_eq_some_iff.mp h
        cases h
        exact hThen ((item_passes hItem).cons hAt) (ih hMore)
      · exact hThen (Passes.one hAt) (ih h)

/-- From `pos` to `last` at most as many lists are taken as start there, and as many only if none starts
inside another. -/
def Counts (events : List LocatedEvent) (pos last n : Nat) : Prop :=
  n + listStarts (ahead events last) ≤ listStarts (ahead events pos) ∧
    (n + listStarts (ahead events last) = listStarts (ahead events pos) →
      clear false (ahead events last) = true → clear false (ahead events pos) = true)

theorem Passes.counts (h : Passes events pos last) : Counts events pos last 0 := by
  unfold Counts
  rw [Nat.zero_add]
  exact ⟨h.starts, fun hSame hClear => h.clear hSame false hClear⟩

theorem Counts.trans {n n' : Nat} (h : Counts events pos mid n) (h' : Counts events mid last n') :
    Counts events pos last (n + n') := by
  obtain ⟨hLe, hClear⟩ := h
  obtain ⟨hLe', hClear'⟩ := h'
  refine ⟨by omega, fun hSame hLast => ?_⟩
  exact hClear (by omega) (hClear' (by omega) hLast)

theorem Passes.then_counts {n : Nat} (h : Passes events pos mid) (h' : Counts events mid last n) :
    Counts events pos last n := by
  have hWhole := h.counts.trans h'
  rwa [Nat.zero_add] at hWhole

theorem list_counts {at_ : LocatedEvent} {start : Option Nat} {fuel : Nat} {items : List (List Inline)}
    (hAt : events[pos]? = some at_) (hEvent : at_.event = .start (.list start))
    (h : parseListItems events fuel (pos + 1) = some (items, last)) : Counts events pos last 1 := by
  obtain ⟨hLe, hClear⟩ := items_pass h
  have hStart : listStarts (ahead events pos) = listStarts (ahead events (pos + 1)) + 1 := by
    rw [ahead_cons hAt, listStarts_cons, hEvent]
    rfl
  refine ⟨by omega, fun hSame hLast => ?_⟩
  rw [ahead_cons hAt, hEvent]
  exact hClear (by omega) hLast

theorem tableBlock_lists {G : Type} (headers : List (List Inline)) (rows : List (List (List Inline)))
    (aligns : List ColAlign) : (tableBlock headers rows aligns : Block G).lists = [] := by
  unfold tableBlock
  split
  · split <;> rfl
  · rfl

theorem codeBlock_lists {G : Type} (build : List Char → Except String G) (lang code : List Char) :
    (codeBlock build lang code).lists = [] := by
  unfold codeBlock
  split
  · split <;> rfl
  · rfl

theorem blocks_count {G : Type} {build : List Char → Except String G} {fuel : Nat}
    {endTag : Option TagEnd} {blocks : List (Block G)}
    (h : parseBlocks build events fuel pos endTag = some (blocks, last)) :
    Counts events pos last (listsOf blocks).length := by
  induction fuel generalizing pos last endTag blocks with
  | zero => cases h
  | succ fuel ih =>
    -- a block that an inner consumer has read up to `mid`
    have hPush : ∀ {pos mid last line : Nat} {block : Block G} {blocks : List (Block G)},
        Counts events pos mid block.lists.length →
        (parseBlocks build events fuel mid endTag).map
          (fun more => (.located line block :: more.1, more.2)) = some (blocks, last) →
        Counts events pos last (listsOf blocks).length := by
      intro pos mid last line block blocks hCounts h
      obtain ⟨⟨more, _⟩, hMore, h⟩ := Option.map_eq_some_iff.mp h
      cases h
      rw [listsOf, Block.lists, List.length_append]
      exact hCounts.trans (ih hMore)
    unfold parseBlocks at h
    split at h
    · cases h
      exact (Passes.refl pos).counts
    · rename_i at_ hAt
      have hSkip : ∀ {last : Nat} {blocks : List (Block G)},
          parseBlocks build events fuel (pos + 1) endTag = some (blocks, last) →
            Counts events pos last (listsOf blocks).length :=
        fun h => (Passes.one hAt).then_counts (ih h)
      split at h
      · split at h
        · cases h
          exact (Passes.one hAt).counts
        · exact hSkip h
      · obtain ⟨⟨inlines, mid⟩, hInner, h⟩ := Option.bind_eq_some_iff.mp h
        exact hPush (((inlines_pass fuel).1 hInner).cons hAt).counts h
      · obtain ⟨⟨inlines, mid⟩, hInner, h⟩ := Option.bind_eq_some_iff.mp h
        have hPass := ((inlines_pass fuel).1 hInner).cons hAt
        dsimp only at h
        split at h
        · exact hPass.then_counts (ih h)
        · exact hPush hPass.counts h
      · obtain ⟨⟨code, mid⟩, hInner, h⟩ := Option.bind_eq_some_iff.mp h
        refine hPush ?_ h
        rw [codeBlock_lists]
        exact ((code_passes hInner).cons hAt).counts
      · obtain ⟨⟨inner, mid⟩, hInner, h⟩ := Option.bind_eq_some_iff.mp h
        exact hPush ((Passes.one hAt).then_counts (ih hInner)) h
      · rename_i start hEvent
        obtain ⟨⟨items, mid⟩, hInner, h⟩ := Option.bind_eq_some_iff.mp h
        refine hPush ?_ h
        have hOne : (if start.isSome then Block.orderedList (start.getD 1) items else .bulletList items :
            Block G).lists.length = 1 := by
          split <;> rfl
        rw [hOne]
        exact list_counts hAt hEvent hInner
      · obtain ⟨⟨⟨headers, rows⟩, mid⟩, hInner, h⟩ := Option.bind_eq_some_iff.mp h
        refine hPush ?_ h
        rw [tableBlock_lists]
        exact ((rows_pass hInner).cons hAt).counts
      · exact hPush (Passes.one hAt).counts h
      · exact hSkip h

/-- Where all lists of a document are found, none stands inside an item of another. -/
theorem flat_of_lists {G : Type} {build : List Char → Except String G} {doc : Blocks} {fuel : Nat}
    {blocks : List (Block G)} (hEvents : events.map (·.event) = doc.events)
    (h : parseBlocks build events fuel 0 none = some (blocks, events.length))
    (hLists : listsOf blocks = doc.lists) : doc.Flat := by
  obtain ⟨-, hClear⟩ := blocks_count h
  have hEnd : ahead events events.length = [] := by
    rw [ahead, List.drop_length]
    rfl
  have hStart : ahead events 0 = doc.events := hEvents
  rw [hEnd, hStart, hLists, doc.lists_length] at hClear
  have hWhole := hClear rfl rfl
  rw [← List.append_nil doc.events] at hWhole
  exact (doc.flat_of_clear hWhole).1

end Parser

end FactorForth.Gui
