import FactorForth.Gui.MarkdownBlocks
import FactorForth.Gui.MarkdownLists
import Mathlib.Tactic.ByContra

/-! When the help viewer keeps a document: a list in an item is passed over by the collector of the item,
and a line break in a span becomes a blank. -/

namespace FactorForth.Gui
open FactorForth.Library

/-! Blanks. -/

/-- `held` is `text` with `n` characters put in. -/
structure Joins (text held : List Char) (n : Nat) : Prop where
  sub : text.Sublist held
  length : held.length = text.length + n

namespace Joins

theorem refl (text : List Char) : Joins text text 0 := ⟨List.Sublist.refl text, rfl⟩

theorem append {text text' held held' : List Char} {n n' : Nat} (h : Joins text held n)
    (h' : Joins text' held' n') : Joins (text ++ text') (held ++ held') (n + n') := by
  refine ⟨h.sub.append h'.sub, ?_⟩
  rw [List.length_append, List.length_append, h.length, h'.length]
  omega

theorem blank {text held : List Char} {n : Nat} (h : Joins text held n) :
    Joins text (' ' :: held) (n + 1) := by
  refine ⟨h.sub.cons _, ?_⟩
  rw [List.length_cons, h.length]
  rfl

theorem eq_iff {text held : List Char} {n : Nat} (h : Joins text held n) : held = text ↔ n = 0 := by
  constructor
  · rintro rfl
    have hLength := h.length
    omega
  · rintro rfl
    exact (h.sub.eq_of_length h.length.symm).symm

theorem flatMap {α : Type} {f g : α → List Char} {count : α → Nat} (h : ∀ a, Joins (f a) (g a) (count a)) :
    ∀ xs : List α, Joins (xs.flatMap f) (xs.flatMap g) (xs.map count).sum
  | [] => refl []
  | x :: xs => (h x).append (flatMap h xs)

end Joins

theorem streamText_cons (e : Event) (es : List Event) :
    streamText (e :: es) = eventText e ++ streamText es := rfl

theorem streamText_append (es es' : List Event) :
    streamText (es ++ es') = streamText es ++ streamText es' := List.flatMap_append

theorem streamText_texts (texts : List (List Char)) :
    streamText (texts.map .text) = texts.flatten := by
  induction texts with
  | nil => rfl
  | cons t texts ih => exact congrArg (t ++ ·) ih

theorem streamText_htmls (texts : List (List Char)) : streamText (texts.map .html) = [] := by
  rw [streamText, List.flatMap_map]
  exact List.flatMap_eq_nil_iff.mpr fun _ _ => rfl

/-- The mark that opens or closes a block is no text. -/
theorem streamText_bracket {first stop : Event} (hFirst : eventText first = [])
    (hStop : eventText stop = []) (body rest : List Event) :
    streamText (first :: (body ++ stop :: rest)) = streamText body ++ streamText rest := by
  rw [streamText_cons, hFirst, List.nil_append, streamText_append, streamText_cons, hStop,
    List.nil_append]

theorem Inlines.joins_collected (tree : Inlines) :
    Joins (streamText tree.events) tree.collected tree.breaks := by
  induction tree with
  | nil => exact Joins.refl []
  | text t rest ih =>
    have hText := (Joins.refl t).append ih
    rwa [Nat.zero_add] at hText
  | code t rest ih =>
    have hText := (Joins.refl t).append ih
    rwa [Nat.zero_add] at hText
  | html t rest ih => exact ih
  | softBreak rest ih => exact ih.blank
  | hardBreak rest ih => exact ih.blank
  | span kind body rest ihBody ihRest =>
    rw [events, streamText_bracket rfl rfl]
    exact ihBody.append ihRest

theorem Inlines.joins_held (tree : Inlines) :
    Joins (streamText tree.events) tree.held tree.spanBreaks := by
  induction tree with
  | nil => exact Joins.refl []
  | text t rest ih =>
    have hText := (Joins.refl t).append ih
    rwa [Nat.zero_add] at hText
  | code t rest ih =>
    have hText := (Joins.refl t).append ih
    rwa [Nat.zero_add] at hText
  | html t rest ih => exact ih
  | softBreak rest ih => exact ih
  | hardBreak rest ih => exact ih
  | span kind body rest ihBody ihRest =>
    rw [events, streamText_bracket rfl rfl]
    cases kind with
    | strikethrough => exact ihBody.append ihRest
    | _ => exact body.joins_collected.append ihRest

section Cells
variable {held : Inlines → List Char} {count : Inlines → Nat}
  (h : ∀ tree : Inlines, Joins (streamText tree.events) (held tree) (count tree))
include h

theorem joins_cells (cells : List Inlines) :
    Joins (streamText (cells.flatMap cellEvents)) (cells.flatMap held) (cells.map count).sum := by
  rw [streamText, List.flatMap_assoc]
  refine Joins.flatMap (fun cell => ?_) cells
  have hCell := @streamText_bracket (.start .tableCell) (.stop .tableCell) rfl rfl cell.events []
  rw [show streamText [] = [] from rfl, List.append_nil] at hCell
  show Joins (streamText (cellEvents cell)) _ _
  rw [cellEvents, hCell]
  exact h cell

theorem joins_table (head : List Inlines) (rows : List (List Inlines)) :
    Joins (streamText (tableEvents head rows)) (head.flatMap held ++ rows.flatMap (·.flatMap held))
      (rowsBreaks count head rows) := by
  rw [tableEvents, streamText_bracket rfl rfl]
  refine (joins_cells h head).append ?_
  induction rows with
  | nil => exact Joins.refl []
  | cons row rows ih =>
    rw [List.flatMap_cons, List.flatMap_cons, streamText_append, List.flatten_cons, List.map_append,
      List.sum_append]
    refine Joins.append ?_ ih
    have hRow := @streamText_bracket (.start .tableRow) (.stop .tableRow) rfl rfl (row.flatMap cellEvents) []
    rw [show streamText [] = [] from rfl, List.append_nil] at hRow
    rw [rowEvents, hRow]
    exact joins_cells h row

end Cells

/-! Items. -/

mutual

theorem Blocks.joins_item : (tree : Blocks) → tree.NoLists →
    Joins (streamText tree.events) tree.itemHeld tree.spanBreaks
  | .nil, _ => Joins.refl []
  | .heading level body rest, h => by
    rw [Blocks.events, streamText_bracket rfl rfl]
    exact body.joins_held.append (Blocks.joins_item rest h)
  | .paragraph body rest, h => by
    rw [Blocks.events, streamText_bracket rfl rfl]
    exact body.joins_held.append (Blocks.joins_item rest h)
  | .code kind texts rest, h => by
    rw [Blocks.events, streamText_bracket rfl rfl, streamText_texts]
    have hCode := (Joins.refl texts.flatten).append (Blocks.joins_item rest h)
    rwa [Nat.zero_add] at hCode
  | .html texts rest, h => by
    rw [Blocks.events, streamText_bracket rfl rfl, streamText_htmls]
    exact Blocks.joins_item rest h
  | .quote kind body rest, h => by
    rw [Blocks.events, streamText_bracket rfl rfl]
    exact (Blocks.joins_item body h.1).append (Blocks.joins_item rest h.2)
  | .list _ _ _, h => h.elim
  | .table aligns head rows _ rest, h => by
    rw [Blocks.events, streamText_bracket rfl rfl]
    exact (joins_table Inlines.joins_held head rows).append (Blocks.joins_item rest h)
  | .rule rest, h => Blocks.joins_item rest h

theorem Parts.joins_item : (tree : Parts) → tree.NoLists →
    Joins (streamText tree.events) tree.itemHeld tree.spanBreaks
  | .nil, _ => Joins.refl []
  | .inlines body rest, h => by
    rw [Parts.events, streamText_append]
    exact body.joins_held.append (Parts.joins_item rest h)
  | .blocks body rest, h => by
    rw [Parts.events, streamText_append]
    exact (Blocks.joins_item body h.1).append (Parts.joins_item rest h.2)

end

theorem Items.joins : (tree : Items) → tree.NoLists →
    Joins (streamText tree.events) tree.helds.flatten tree.spanBreaks
  | .nil, _ => Joins.refl []
  | .item parts rest, h => by
    rw [Items.events, streamText_bracket rfl rfl]
    exact (parts.joins_item h.1).append (joins rest h.2)

/-- Each line break in a span or, outside of items, in a cell becomes a blank; all else is the text. -/
theorem Blocks.joins : (doc : Blocks) → doc.Flat → Joins (streamText doc.trimmed.events) doc.held doc.blanks
  | .nil, _ => Joins.refl []
  | .heading level body rest, h => by
    rw [trimmed, events, streamText_bracket rfl rfl]
    exact body.joins_held.append (joins rest h)
  | .paragraph body rest, h => by
    rw [trimmed, events, streamText_bracket rfl rfl]
    exact body.joins_held.append (joins rest h)
  | .code kind texts rest, h => by
    rw [trimmed, events, streamText_bracket rfl rfl, streamText_texts, List.flatten_singleton]
    have hCode := (Joins.refl (popNewline texts.flatten)).append (joins rest h)
    rwa [Nat.zero_add] at hCode
  | .html texts rest, h => by
    rw [trimmed, events, streamText_bracket rfl rfl, streamText_htmls]
    exact joins rest h
  | .quote kind body rest, h => by
    rw [trimmed, events, streamText_bracket rfl rfl]
    exact (joins body h.1).append (joins rest h.2)
  | .list start items rest, h => by
    rw [trimmed, events, streamText_bracket rfl rfl]
    exact (items.joins h.1).append (joins rest h.2)
  | .table aligns head rows _ rest, h => by
    rw [trimmed, events, streamText_bracket rfl rfl]
    exact (joins_table Inlines.joins_collected head rows).append (joins rest h)
  | .rule rest, h => joins rest h

mutual

theorem Blocks.ownText_eq : (tree : Blocks) → tree.NoLists → tree.ownText = streamText tree.events
  | .nil, _ => rfl
  | .heading level body rest, h => by
    rw [Blocks.events, streamText_bracket rfl rfl, Blocks.ownText, Blocks.ownText_eq rest h]
  | .paragraph body rest, h => by
    rw [Blocks.events, streamText_bracket rfl rfl, Blocks.ownText, Blocks.ownText_eq rest h]
  | .code kind texts rest, h => by
    rw [Blocks.events, streamText_bracket rfl rfl, streamText_texts, Blocks.ownText,
      Blocks.ownText_eq rest h]
  | .html texts rest, h => by
    rw [Blocks.events, streamText_bracket rfl rfl, streamText_htmls]
    exact Blocks.ownText_eq rest h
  | .quote kind body rest, h => by
    rw [Blocks.events, streamText_bracket rfl rfl, Blocks.ownText, Blocks.ownText_eq body h.1,
      Blocks.ownText_eq rest h.2]
  | .list _ _ _, h => h.elim
  | .table aligns head rows _ rest, h => by
    rw [Blocks.events, streamText_bracket rfl rfl, Blocks.ownText, Blocks.ownText_eq rest h]
  | .rule rest, h => Blocks.ownText_eq rest h

theorem Parts.ownText_eq : (tree : Parts) → tree.NoLists → tree.ownText = streamText tree.events
  | .nil, _ => rfl
  | .inlines body rest, h => by
    rw [Parts.events, streamText_append, Parts.ownText, Parts.ownText_eq rest h]
  | .blocks body rest, h => by
    rw [Parts.events, streamText_append, Parts.ownText, Blocks.ownText_eq body h.1,
      Parts.ownText_eq rest h.2]

end

mutual

theorem Blocks.lists_nil : (tree : Blocks) → tree.NoLists → tree.lists = []
  | .nil, _ => rfl
  | .heading _ _ rest, h => Blocks.lists_nil rest h
  | .paragraph _ rest, h => Blocks.lists_nil rest h
  | .code _ _ rest, h => Blocks.lists_nil rest h
  | .html _ rest, h => Blocks.lists_nil rest h
  | .quote _ body rest, h => by
    rw [Blocks.lists, Blocks.lists_nil body h.1, Blocks.lists_nil rest h.2, List.append_nil]
  | .list _ _ _, h => h.elim
  | .table _ _ _ _ rest, h => Blocks.lists_nil rest h
  | .rule rest, h => Blocks.lists_nil rest h

theorem Parts.lists_nil : (tree : Parts) → tree.NoLists → tree.lists = []
  | .nil, _ => rfl
  | .inlines _ rest, h => Parts.lists_nil rest h
  | .blocks body rest, h => by
    rw [Parts.lists, Blocks.lists_nil body h.1, Parts.lists_nil rest h.2, List.append_nil]

end

theorem Items.lists_nil : (tree : Items) → tree.NoLists → tree.lists = []
  | .nil, _ => rfl
  | .item parts rest, h => by
    rw [Items.lists, parts.lists_nil h.1, lists_nil rest h.2, List.append_nil]

theorem Items.helds_eq : (tree : Items) → tree.NoLists → tree.spanBreaks = 0 → tree.helds = tree.ownTexts
  | .nil, _, _ => rfl
  | .item parts rest, h, hBreaks => by
    obtain ⟨hParts, hRest⟩ := Nat.add_eq_zero_iff.mp hBreaks
    have hHeld := (parts.joins_item h.1).eq_iff.mpr hParts
    rw [helds, ownTexts, hHeld, parts.ownText_eq h.1, helds_eq rest h.2 hRest]

/-- Without line breaks in spans the items of each list are its own. -/
theorem Blocks.heldLists_eq : (doc : Blocks) → doc.Flat → doc.blanks = 0 → doc.heldLists = doc.lists
  | .nil, _, _ => rfl
  | .heading _ _ rest, h, hBlanks => heldLists_eq rest h (Nat.add_eq_zero_iff.mp hBlanks).2
  | .paragraph _ rest, h, hBlanks => heldLists_eq rest h (Nat.add_eq_zero_iff.mp hBlanks).2
  | .code _ _ rest, h, hBlanks => heldLists_eq rest h hBlanks
  | .html _ rest, h, hBlanks => heldLists_eq rest h hBlanks
  | .quote _ body rest, h, hBlanks => by
    obtain ⟨hBody, hRest⟩ := Nat.add_eq_zero_iff.mp hBlanks
    rw [heldLists, lists, heldLists_eq body h.1 hBody, heldLists_eq rest h.2 hRest]
  | .list _ items rest, h, hBlanks => by
    obtain ⟨hItems, hRest⟩ := Nat.add_eq_zero_iff.mp hBlanks
    rw [heldLists, lists, items.helds_eq h.1 hItems, items.lists_nil h.1, List.nil_append,
      heldLists_eq rest h.2 hRest]
  | .table _ _ _ _ rest, h, hBlanks => heldLists_eq rest h (Nat.add_eq_zero_iff.mp hBlanks).2
  | .rule rest, h, hBlanks => heldLists_eq rest h hBlanks

/-- A document is kept if and only if no list stands inside an item of another and no line break inside a
span or, outside of items, in a cell of a table. -/
theorem keepsText_iff {G : Type} (build : List Char → Except String G) {doc : Blocks}
    {events : List LocatedEvent} (hEvents : events.map (·.event) = doc.events) :
    KeepsText build doc events ↔ doc.Flat ∧ doc.blanks = 0 := by
  constructor
  · rintro ⟨blocks, hRun, hText, hLists⟩
    obtain ⟨fuel, hParsed⟩ := hRun.exists_run
    have hFlat := flat_of_lists hEvents hParsed hLists
    obtain ⟨blocks', hRun', hHeld, -⟩ := @flat_parsed G build events doc hFlat hEvents
    obtain ⟨rfl, -⟩ := Prod.mk.inj (hRun.unique hRun')
    exact ⟨hFlat, (doc.joins hFlat).eq_iff.mp (hHeld.symm.trans hText)⟩
  · rintro ⟨hFlat, hBlanks⟩
    obtain ⟨blocks, hRun, hHeld, hLists⟩ := @flat_parsed G build events doc hFlat hEvents
    refine ⟨blocks, hRun, ?_, ?_⟩
    · rw [hHeld]
      exact (doc.joins hFlat).eq_iff.mpr hBlanks
    · rw [hLists, doc.heldLists_eq hFlat hBlanks]

/-- A list `a`, `c` with a list `b` inside its first item. -/
def nestedList : Blocks :=
  .list none (.item (.inlines (.text ['a'] .nil)
      (.blocks (.list none (.item (.inlines (.text ['b'] .nil) .nil) .nil) .nil) .nil))
    (.item (.inlines (.text ['c'] .nil) .nil) .nil)) .nil

def nestedListEvents : List LocatedEvent := nestedList.events.map (⟨·, 1⟩)

/-- The viewer shows one item `ab` and drops `c`. -/
theorem nestedList_lost :
    ¬ KeepsText (fun _ => (Except.ok () : Except String Unit)) nestedList nestedListEvents := by
  rintro ⟨blocks, hRun, hText, -⟩
  have hLost : Settles (fun fuel => parseBlocks (fun _ => (Except.ok () : Except String Unit))
      nestedListEvents fuel 0 none) ([.located 1 (.bulletList [[.text ['a'], .text ['b']]])],
        nestedListEvents.length) := ⟨20, fun fuel hFuel => by
    obtain ⟨fuel, rfl⟩ := Nat.exists_eq_add_of_le' hFuel
    rfl⟩
  obtain ⟨rfl, -⟩ := Prod.mk.inj (hRun.unique hLost)
  exact absurd hText (by decide)

def twoItems : Blocks :=
  .list none (.item (.inlines (.text ['a'] .nil) .nil) (.item (.inlines (.text ['c'] .nil) .nil) .nil)) .nil

theorem keepsText_twoItems :
    KeepsText (fun _ => (Except.ok () : Except String Unit)) twoItems (twoItems.events.map (⟨·, 1⟩)) :=
  (keepsText_iff _ rfl).mpr ⟨⟨⟨trivial, trivial, trivial⟩, trivial⟩, rfl⟩

end FactorForth.Gui
