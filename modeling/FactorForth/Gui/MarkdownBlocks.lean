import FactorForth.Gui.MarkdownText
import Mathlib.Data.List.Basic

/-! The blocks of a document. A block quote of any kind may end too early or too late, which moves blocks
between the levels of the tree but loses none. -/

namespace FactorForth.Gui
open FactorForth.Library

section Tables
variable {events : List LocatedEvent}

/-- The cells of a row, each up to its own end. -/
theorem cells_parsed (stop : TagEnd) (cells : List Inlines) {pos : Nat} {more : List Event}
    (hAhead : Upcoming events pos (cells.flatMap cellEvents ++ .stop stop :: more)) :
    ∃ row, row.map collectInlineText = cells.map Inlines.collected ∧
      Settles (fun fuel => parseTableRowInlines events fuel pos stop)
        (row, pos + ((cells.flatMap cellEvents).length + 1)) := by
  induction cells generalizing pos with
  | nil =>
    obtain ⟨at_, hAt, hEvent, -⟩ := hAhead.head
    refine ⟨[], rfl, (Settles.done _).step fun fuel => ?_⟩
    simp only [parseTableRowInlines, hAt, if_pos hEvent]
    rfl
  | cons cell cells ih =>
    have hWhole : Upcoming events pos (.start .tableCell :: (cell.events ++
        .stop .tableCell :: (cells.flatMap cellEvents ++ .stop stop :: more))) := by
      simpa [cellEvents] using hAhead
    obtain ⟨at_, hAt, hEvent, hNext⟩ := hWhole.head
    obtain ⟨_, _, _, hRest⟩ := hNext.skip.head
    obtain ⟨inlines, hTaken, -, hCollected⟩ := inlines_taken cell hNext
    obtain ⟨row, hRow, hLater⟩ := ih hRest
    have hParsed := hTaken.parsed hNext (by decide)
    have hNot : ¬ at_.event = .stop stop := by
      rw [hEvent]
      exact fun h => by cases h
    have hStep : ∀ fuel, parseTableRowInlines events (fuel + 1) pos stop =
        (parseInlines events fuel (pos + 1) .tableCell).bind fun cell =>
          (parseTableRowInlines events fuel cell.2 stop).map fun cells => (cell.1 :: cells.1, cells.2) := by
      intro fuel
      simp only [parseTableRowInlines, hAt, if_neg hNot, if_pos hEvent]
    refine ⟨inlines :: row, by rw [List.map_cons, List.map_cons, hCollected, hRow], ?_⟩
    have hLast : pos + 1 + cell.events.length + 1 + ((cells.flatMap cellEvents).length + 1) =
        pos + (((cell :: cells).flatMap cellEvents).length + 1) := by
      rw [List.flatMap_cons, cellEvents, List.length_append, List.length_cons, List.length_append,
        List.length_singleton]
      omega
    rw [← hLast]
    refine (hParsed.bind ?_).step hStep
    exact hLater.map fun cells => (inlines :: cells.1, cells.2)

theorem rows_parsed (rows : List (List Inlines)) {pos : Nat} {more : List Event}
    (headers : List (List Inline)) (done : List (List (List Inline)))
    (hAhead : Upcoming events pos (rows.flatMap rowEvents ++ .stop .table :: more)) :
    ∃ parsed, parsed.map (·.map collectInlineText) = rows.map (·.map Inlines.collected) ∧
      Settles (fun fuel => parseTableRows events fuel pos headers done)
        ((headers, done ++ parsed), pos + ((rows.flatMap rowEvents).length + 1)) := by
  induction rows generalizing pos done with
  | nil =>
    obtain ⟨at_, hAt, hEvent, -⟩ := hAhead.head
    refine ⟨[], rfl, (Settles.done _).step fun fuel => ?_⟩
    simp only [parseTableRows, hAt, if_pos hEvent, List.append_nil]
    rfl
  | cons row rows ih =>
    have hWhole : Upcoming events pos (.start .tableRow :: (row.flatMap cellEvents ++
        .stop .tableRow :: (rows.flatMap rowEvents ++ .stop .table :: more))) := by
      simpa [rowEvents] using hAhead
    obtain ⟨at_, hAt, hEvent, hNext⟩ := hWhole.head
    obtain ⟨_, _, _, hRest⟩ := hNext.skip.head
    obtain ⟨cells, hCells, hRow⟩ := cells_parsed _ row hNext
    obtain ⟨parsed, hParsed, hLater⟩ := ih (done ++ [cells]) hRest
    have hEnd : ¬ at_.event = .stop .table := by
      rw [hEvent]
      decide
    have hHead : ¬ at_.event = .start .tableHead := by
      rw [hEvent]
      decide
    have hStep : ∀ fuel, parseTableRows events (fuel + 1) pos headers done =
        (parseTableRowInlines events fuel (pos + 1) .tableRow).bind fun cells =>
          parseTableRows events fuel cells.2 headers (done ++ [cells.1]) := by
      intro fuel
      simp only [parseTableRows, hAt, if_neg hEnd, if_neg hHead, if_pos hEvent]
    refine ⟨cells :: parsed, by rw [List.map_cons, List.map_cons, hCells, hParsed], ?_⟩
    have hLast : pos + 1 + (row.flatMap cellEvents).length + 1 + ((rows.flatMap rowEvents).length + 1) =
        pos + (((row :: rows).flatMap rowEvents).length + 1) := by
      rw [List.flatMap_cons, rowEvents, List.length_append, List.length_cons, List.length_append,
        List.length_singleton]
      omega
    rw [← hLast]
    refine (hRow.bind ?_).step hStep
    rwa [List.append_assoc] at hLater

theorem table_parsed (head : List Inlines) (rows : List (List Inlines)) {pos : Nat} {more : List Event}
    (hAhead : Upcoming events pos (tableEvents head rows ++ .stop .table :: more)) :
    ∃ headers parsed, headers.map collectInlineText = head.map Inlines.collected ∧
      parsed.map (·.map collectInlineText) = rows.map (·.map Inlines.collected) ∧
      Settles (fun fuel => parseTableRows events fuel pos [] [])
        ((headers, parsed), pos + ((tableEvents head rows).length + 1)) := by
  have hWhole : Upcoming events pos (.start .tableHead :: (head.flatMap cellEvents ++
      .stop .tableHead :: (rows.flatMap rowEvents ++ .stop .table :: more))) := by
    simpa [tableEvents] using hAhead
  obtain ⟨at_, hAt, hEvent, hNext⟩ := hWhole.head
  obtain ⟨_, _, _, hRest⟩ := hNext.skip.head
  obtain ⟨headers, hHeaders, hHead⟩ := cells_parsed _ head hNext
  obtain ⟨parsed, hParsed, hLater⟩ := rows_parsed rows headers [] hRest
  have hEnd : ¬ at_.event = .stop .table := by
    rw [hEvent]
    decide
  have hStep : ∀ fuel, parseTableRows events (fuel + 1) pos [] [] =
      (parseTableRowInlines events fuel (pos + 1) .tableHead).bind fun cells =>
        parseTableRows events fuel cells.2 cells.1 [] := by
    intro fuel
    simp only [parseTableRows, hAt, if_neg hEnd, if_pos hEvent]
  refine ⟨headers, parsed, hHeaders, hParsed, ?_⟩
  have hLast : pos + 1 + (head.flatMap cellEvents).length + 1 + ((rows.flatMap rowEvents).length + 1) =
      pos + ((tableEvents head rows).length + 1) := by
    rw [tableEvents, List.length_cons, List.length_append, List.length_cons]
    omega
  rw [← hLast]
  exact (hHead.bind hLater).step hStep

end Tables

/-! A toolbar holds what its table would. -/

theorem isLoneImage_iff {cell : List Inline} (h : isLoneImage cell = true) :
    ∃ alt src, cell = [.image alt src] := by
  unfold isLoneImage at h
  split at h
  · exact ⟨_, _, rfl⟩
  · cases h

theorem isLoneLink_iff {cell : List Inline} (h : isLoneLink cell = true) :
    ∃ text href, cell = [.link text href] := by
  unfold isLoneLink at h
  split at h
  · exact ⟨_, _, rfl⟩
  · cases h

theorem toolbar_text {headers row : List (List Inline)} (hLength : row.length = headers.length)
    (hImages : ∀ cell ∈ headers, isLoneImage cell = true) (hLinks : ∀ cell ∈ row, isLoneLink cell = true) :
    (((headers.zip row).filterMap fun (hc, rc) => toolbarItem hc rc).flatMap (·.imageAlt)) =
        headers.flatMap collectInlineText ∧
      (((headers.zip row).filterMap fun (hc, rc) => toolbarItem hc rc).flatMap (·.label)) =
        row.flatMap collectInlineText := by
  induction headers generalizing row with
  | nil =>
    rw [List.length_nil, List.length_eq_zero_iff] at hLength
    rw [hLength]
    exact ⟨rfl, rfl⟩
  | cons cell headers ih =>
    cases row with
    | nil => cases hLength
    | cons cell' row =>
      obtain ⟨alt, src, rfl⟩ := isLoneImage_iff (hImages cell List.mem_cons_self)
      obtain ⟨text, href, rfl⟩ := isLoneLink_iff (hLinks cell' List.mem_cons_self)
      obtain ⟨hAlts, hLabels⟩ := ih (Nat.succ.inj hLength)
        (fun c hc => hImages c (List.mem_cons_of_mem _ hc))
        (fun c hc => hLinks c (List.mem_cons_of_mem _ hc))
      have hItems : (((([.image alt src] : List Inline) :: headers).zip ([.link text href] :: row)).filterMap
          fun (hc, rc) => toolbarItem hc rc) =
            ⟨src, alt, text, href⟩ :: (headers.zip row).filterMap fun (hc, rc) => toolbarItem hc rc := rfl
      rw [hItems, List.flatMap_cons, List.flatMap_cons, List.flatMap_cons, List.flatMap_cons, hAlts, hLabels]
      exact ⟨congrArg (· ++ _) (List.append_nil alt).symm, congrArg (· ++ _) (List.append_nil text).symm⟩

theorem tableBlock_held {G : Type} {headers : List (List Inline)} {rows : List (List (List Inline))}
    (hSquare : ∀ row ∈ rows, row.length = headers.length) (aligns : List ColAlign) :
    (tableBlock headers rows aligns : Block G).held =
        headers.flatMap collectInlineText ++ rows.flatMap (·.flatMap collectInlineText) ∧
      (tableBlock headers rows aligns : Block G).lists = [] := by
  have hTable : (Block.table (headers.map collectInlineText) (rows.map (·.map collectInlineText)) aligns :
      Block G).held = headers.flatMap collectInlineText ++ rows.flatMap (·.flatMap collectInlineText) := by
    rw [Block.held, List.flatMap_map, ← List.flatMap_def]
    simp only [← List.flatMap_def]
  unfold tableBlock
  split
  · rename_i row
    split
    · rename_i hToolbar
      obtain ⟨-, hImages, hLinks⟩ := hToolbar
      obtain ⟨hAlts, hLabels⟩ := toolbar_text (hSquare row List.mem_cons_self)
        (List.all_eq_true.mp hImages) (List.all_eq_true.mp hLinks)
      refine ⟨?_, rfl⟩
      rw [Block.held, hAlts, hLabels, List.flatMap_singleton]
    · exact ⟨hTable, rfl⟩
  · exact ⟨hTable, rfl⟩

/-! Blocks one after the other. -/

theorem heldBlocks_append {G : Type} (a b : List (Block G)) :
    heldBlocks (a ++ b) = heldBlocks a ++ heldBlocks b := by
  induction a with
  | nil => rfl
  | cons block a ih => rw [List.cons_append, heldBlocks, heldBlocks, ih, List.append_assoc]

theorem listsOf_append {G : Type} (a b : List (Block G)) :
    listsOf (a ++ b) = listsOf a ++ listsOf b := by
  induction a with
  | nil => rfl
  | cons block a ih => rw [List.cons_append, listsOf, listsOf, ih, List.append_assoc]

/-- The end tags that blocks are parsed up to. -/
def QuoteLevel (endTag : Option TagEnd) : Prop := endTag = none ∨ endTag = some (.blockQuote none)

section Levels
variable {G : Type} (build : List Char → Except String G) (events : List LocatedEvent)

/-- Events that the parser of blocks takes whole on any level, with the text and the lists they become. -/
structure Leaf (es : List Event) (text : List Char) (lists : List (List (List Char))) : Prop where
  ne_nil : es ≠ []
  parsed : ∀ pos more, Upcoming events pos (es ++ more) → ∃ blocks : List (Block G),
    heldBlocks blocks = text ∧ listsOf blocks = lists ∧ ∀ endTag, QuoteLevel endTag → ∀ behind last,
      Settles (fun fuel => parseBlocks build events fuel (pos + es.length) endTag) (behind, last) →
        Settles (fun fuel => parseBlocks build events fuel pos endTag) (blocks ++ behind, last)

/-- Leaves between the marks of block quotes. -/
inductive Stream : List Event → List Char → List (List (List Char)) → Prop where
  | nil : Stream [] [] []
  | leaf {es rest : List Event} {text textRest : List Char} {lists listsRest : List (List (List Char))} :
    Leaf build events es text lists → Stream rest textRest listsRest →
      Stream (es ++ rest) (text ++ textRest) (lists ++ listsRest)
  | start {rest : List Event} {text : List Char} {lists : List (List (List Char))}
    (kind : Option BlockQuoteKind) : Stream rest text lists →
      Stream (.start (.blockQuote kind) :: rest) text lists
  | stop {rest : List Event} {text : List Char} {lists : List (List (List Char))}
    (kind : Option BlockQuoteKind) : Stream rest text lists →
      Stream (.stop (.blockQuote kind) :: rest) text lists

variable {build events} {pos : Nat}

theorem Stream.empty {es : List Event} {text : List Char} {lists : List (List (List Char))}
    (h : Stream build events es text lists) (hNil : es = []) : text = [] ∧ lists = [] := by
  cases h with
  | nil => exact ⟨rfl, rfl⟩
  | leaf hLeaf _ => exact absurd (List.append_eq_nil_iff.mp hNil).1 hLeaf.ne_nil
  | start _ _ => cases hNil
  | stop _ _ => cases hNil

/-- A block that an inner consumer reads up to `next`. -/
theorem pushed {α : Type} {inner : Nat → Option (α × Nat)} {a : α} {next last line : Nat}
    {endTag : Option TagEnd} {behind : List (Block G)} {make : α → Block G}
    (hInner : Settles inner (a, next))
    (hStep : ∀ fuel, parseBlocks build events (fuel + 1) pos endTag =
      (inner fuel).bind fun (a, pos) => (parseBlocks build events fuel pos endTag).map fun (blocks, pos) =>
        (.located line (make a) :: blocks, pos))
    (hBehind : Settles (fun fuel => parseBlocks build events fuel next endTag) (behind, last)) :
    Settles (fun fuel => parseBlocks build events fuel pos endTag)
      (.located line (make a) :: behind, last) := by
  refine (hInner.bind ?_).step hStep
  exact hBehind.map fun (blocks, pos) => (Block.located line (make a) :: blocks, pos)

/-- The rest of the stream is taken by an outer level; none is left to the outermost. -/
theorem stream_parsed (n : Nat) : ∀ {es : List Event} {text : List Char} {lists : List (List (List Char))}
    {pos : Nat} {endTag : Option TagEnd}, es.length < n → Stream build events es text lists →
    Upcoming events pos es → QuoteLevel endTag →
    ∃ blocks last rest textRest listsRest,
      Settles (fun fuel => parseBlocks build events fuel pos endTag) (blocks, last) ∧
        Upcoming events last rest ∧ Stream build events rest textRest listsRest ∧
        last + rest.length = pos + es.length ∧ pos ≤ last ∧ heldBlocks blocks ++ textRest = text ∧
        listsOf blocks ++ listsRest = lists ∧ (endTag = none → rest = []) := by
  induction n with
  | zero => exact fun hLength => absurd hLength (Nat.not_lt_zero _)
  | succ n ih =>
    intro es text lists pos endTag hLength hStream hAhead hLevel
    cases hStream with
    | nil =>
      refine ⟨[], pos, [], [], [], ?_, hAhead, .nil, rfl, Nat.le_refl _, rfl, rfl, fun _ => rfl⟩
      refine (Settles.done _).step fun fuel => ?_
      simp only [parseBlocks, hAhead.nil]
    | @leaf es rest text textRest lists listsRest hLeaf hRest =>
      rw [List.length_append] at hLength
      have hPos := List.length_pos_iff.mpr hLeaf.ne_nil
      obtain ⟨blocks, hText, hLists, hRun⟩ := hLeaf.parsed pos rest hAhead
      obtain ⟨behind, last, left, textLeft, listsLeft, hBehind, hLeft, hStreamLeft, hLast, hUp, hTextLeft,
        hListsLeft, hNone⟩ := ih (by omega) hRest hAhead.skip hLevel
      refine ⟨blocks ++ behind, last, left, textLeft, listsLeft, hRun endTag hLevel _ _ hBehind, hLeft,
        hStreamLeft, ?_, by omega, ?_, ?_, hNone⟩
      · rw [List.length_append]
        omega
      · rw [heldBlocks_append, hText, List.append_assoc, hTextLeft]
      · rw [listsOf_append, hLists, List.append_assoc, hListsLeft]
    | @start rest text lists kind hRest =>
      rw [List.length_cons] at hLength
      obtain ⟨at_, hAt, hEvent, hNext⟩ := hAhead.head
      obtain ⟨inner, mid, left, textLeft, listsLeft, hInner, hLeft, hStreamLeft, hMid, hUp, hText, hLists, -⟩ :=
        ih (by omega) hRest hNext (.inr rfl)
      -- whatever the inner level leaves is taken on this one
      obtain ⟨behind, last, out, textOut, listsOut, hBehind, hOut, hStreamOut, hLast, hUp', hTextOut,
        hListsOut, hNone⟩ := ih (by omega) hStreamLeft hLeft hLevel
      refine ⟨.located at_.line (.blockquote inner) :: behind, last, out, textOut, listsOut,
        pushed hInner (fun fuel => ?_) hBehind, hOut, hStreamOut, ?_, by omega, ?_, ?_, hNone⟩
      · simp only [parseBlocks, hAt, hEvent]
      · rw [List.length_cons]
        omega
      · rw [heldBlocks, Block.held, Block.held, List.append_assoc, hTextOut, hText]
      · rw [listsOf, Block.lists, Block.lists, List.append_assoc, hListsOut, hLists]
    | @stop rest text lists kind hRest =>
      rw [List.length_cons] at hLength
      obtain ⟨at_, hAt, hEvent, hNext⟩ := hAhead.head
      by_cases hEnd : some (.blockQuote kind) = endTag
      · refine ⟨[], pos + 1, rest, text, lists, ?_, hNext, hRest, ?_, by omega, rfl, rfl, ?_⟩
        · refine (Settles.done _).step fun fuel => ?_
          simp only [parseBlocks, hAt, hEvent, if_pos hEnd]
        · rw [List.length_cons]
          omega
        · rw [← hEnd]
          exact fun h => by cases h
      · obtain ⟨blocks, last, left, textLeft, listsLeft, hRun, hLeft, hStreamLeft, hLast, hUp, hText, hLists,
          hNone⟩ := ih (by omega) hRest hNext hLevel
        refine ⟨blocks, last, left, textLeft, listsLeft, hRun.step fun fuel => ?_, hLeft, hStreamLeft, ?_,
          by omega, hText, hLists, hNone⟩
        · simp only [parseBlocks, hAt, hEvent, if_neg hEnd]
        · rw [List.length_cons]
          omega

/-! The leaves. -/

theorem headingLevel_hl (level : HeadingLevel) : headingLevel (hl level) = level := by
  cases level <;> rfl

/-- A leaf that one consumer reads between its two marks. -/
theorem Leaf.bracketed {α : Type} {first stop : Event} {body : List Event} {text : List Char}
    {lists : List (List (List Char))} (inner : (fuel pos : Nat) → Option (α × Nat))
    (make : α → Option (Block G))
    (hRead : ∀ pos more, Upcoming events pos (body ++ stop :: more) →
      ∃ a, Settles (fun fuel => inner fuel pos) (a, pos + (body.length + 1)) ∧
        heldBlocks (make a).toList = text ∧ listsOf (make a).toList = lists)
    (hStep : ∀ fuel pos at_ endTag, events[pos]? = some at_ → at_.event = first →
      parseBlocks build events (fuel + 1) pos endTag =
        (inner fuel (pos + 1)).bind fun (a, pos) =>
          (parseBlocks build events fuel pos endTag).map fun (blocks, pos) =>
            (((make a).map (Block.located at_.line)).toList ++ blocks, pos)) :
    Leaf build events (first :: (body ++ [stop])) text lists := by
  refine ⟨List.cons_ne_nil _ _, fun pos more hAhead => ?_⟩
  have hWhole : Upcoming events pos (first :: (body ++ stop :: more)) := by
    simpa using hAhead
  obtain ⟨at_, hAt, hEvent, hNext⟩ := hWhole.head
  obtain ⟨a, hInner, hText, hLists⟩ := hRead _ _ hNext
  refine ⟨((make a).map (Block.located at_.line)).toList, ?_, ?_, fun endTag _ behind last hBehind => ?_⟩
  · rw [← hText]
    cases make a <;> rfl
  · rw [← hLists]
    cases make a <;> rfl
  · have hLength : pos + (first :: (body ++ [stop])).length = pos + 1 + (body.length + 1) := by
      rw [List.length_cons, List.length_append, List.length_singleton]
      omega
    rw [hLength] at hBehind
    refine (hInner.bind ?_).step fun fuel => hStep fuel pos at_ endTag hAt hEvent
    exact hBehind.map fun (blocks, pos) =>
      (((make a).map (Block.located at_.line)).toList ++ blocks, pos)

theorem leaf_heading (level : HeadingLevel) (body : Inlines) :
    Leaf build events (.start (.heading level) :: (body.events ++ [.stop (.heading level)])) body.held
      [] := by
  refine Leaf.bracketed (fun fuel pos => parseInlines events fuel pos (.heading level))
    (fun inlines => some (.heading (hl level) inlines)) ?_ ?_
  · intro pos more hAhead
    obtain ⟨inlines, hTaken, hHeld, -⟩ := inlines_taken body hAhead
    refine ⟨inlines, hTaken.parsed hAhead (by simp), ?_, rfl⟩
    rw [← hHeld]
    exact List.append_nil _
  · intro fuel pos at_ endTag hAt hEvent
    simp only [parseBlocks, hAt, hEvent, headingLevel_hl]
    rfl

theorem leaf_paragraph (body : Inlines) :
    Leaf build events (.start .paragraph :: (body.events ++ [.stop .paragraph])) body.held [] := by
  refine Leaf.bracketed (fun fuel pos => parseInlines events fuel pos .paragraph)
    (fun inlines => if inlines = [] then none else some (.paragraph inlines)) ?_ ?_
  · intro pos more hAhead
    obtain ⟨inlines, hTaken, hHeld, -⟩ := inlines_taken body hAhead
    refine ⟨inlines, hTaken.parsed hAhead (by decide), ?_, ?_⟩
    · rw [← hHeld]
      split
      · rename_i hNil
        rw [hNil]
        rfl
      · exact List.append_nil _
    · split <;> rfl
  · intro fuel pos at_ endTag hAt hEvent
    simp only [parseBlocks, hAt, hEvent]
    congr 1
    funext ⟨inlines, pos⟩
    dsimp only
    split
    · simp only [Option.map_none, Option.toList_none, List.nil_append]
      exact Option.map_id'.symm
    · rfl

theorem code_parsed (texts : List (List Char)) {pos : Nat} {more : List Event}
    (hAhead : Upcoming events pos (texts.map .text ++ .stop .codeBlock :: more)) :
    Settles (fun fuel => parseCode events fuel pos) (texts.flatten, pos + (texts.length + 1)) := by
  induction texts generalizing pos with
  | nil =>
    obtain ⟨at_, hAt, hEvent, -⟩ := hAhead.head
    refine (Settles.done _).step fun fuel => ?_
    simp only [parseCode, hAt, hEvent]
    rfl
  | cons t texts ih =>
    obtain ⟨at_, hAt, hEvent, hNext⟩ := hAhead.head
    have hStep : ∀ fuel, parseCode events (fuel + 1) pos =
        (parseCode events fuel (pos + 1)).map fun code => (t ++ code.1, code.2) := by
      intro fuel
      simp only [parseCode, hAt, hEvent]
    have hLast : pos + 1 + (texts.length + 1) = pos + ((t :: texts).length + 1) := by
      rw [List.length_cons]
      omega
    rw [← hLast]
    refine Settles.step ?_ hStep
    exact (ih hNext).map fun code => (t ++ code.1, code.2)

theorem leaf_code (kind : CodeBlockKind) (texts : List (List Char)) :
    Leaf build events (.start (.codeBlock kind) :: (texts.map .text ++ [.stop .codeBlock]))
      (popNewline texts.flatten) [] := by
  have hBlock : ∀ code, (codeBlock build (codeLang kind) code).held = code ∧
      (codeBlock build (codeLang kind) code).lists = [] := by
    intro code
    unfold codeBlock
    split
    · cases build code with
      | ok g => exact ⟨rfl, rfl⟩
      | error e => exact ⟨rfl, rfl⟩
    · exact ⟨rfl, rfl⟩
  refine Leaf.bracketed (parseCode events)
    (fun code => some (codeBlock build (codeLang kind) (popNewline code))) ?_ ?_
  · intro pos more hAhead
    have hCode := code_parsed texts hAhead
    rw [← List.length_map Event.text] at hCode
    refine ⟨texts.flatten, hCode, ?_, ?_⟩
    · exact (List.append_nil _).trans (hBlock _).1
    · exact (List.append_nil _).trans (hBlock _).2
  · intro fuel pos at_ endTag hAt hEvent
    simp only [parseBlocks, hAt, hEvent]
    rfl

theorem leaf_list (start : Option Nat) {items : Items} (hItems : items.NoLists) :
    Leaf build events (.start (.list start) :: (items.events ++ [.stop (.list start.isSome)]))
      items.helds.flatten [items.helds] := by
  refine Leaf.bracketed (parseListItems events)
    (fun parsed => some (if start.isSome then .orderedList (start.getD 1) parsed else .bulletList parsed))
    ?_ ?_
  · intro pos more hAhead
    obtain ⟨parsed, hParsed, hRun⟩ := listItems_parsed items hItems hAhead
    refine ⟨parsed, hRun, ?_, ?_⟩
    · rw [← hParsed, ← List.flatMap_def]
      split <;> exact List.append_nil _
    · rw [← hParsed]
      split <;> rfl
  · intro fuel pos at_ endTag hAt hEvent
    simp only [parseBlocks, hAt, hEvent]
    rfl

theorem leaf_table (aligns : List Alignment) {head : List Inlines} {rows : List (List Inlines)}
    (hSquare : ∀ row ∈ rows, row.length = head.length) :
    Leaf build events (.start (.table aligns) :: (tableEvents head rows ++ [.stop .table]))
      (head.flatMap Inlines.collected ++ rows.flatMap (·.flatMap Inlines.collected)) [] := by
  refine Leaf.bracketed (fun fuel pos => parseTableRows events fuel pos [] [])
    (fun cells => some (tableBlock cells.1 cells.2 (aligns.map parseColAlign))) ?_ ?_
  · intro pos more hAhead
    obtain ⟨headers, parsed, hHeaders, hParsed, hRun⟩ := table_parsed head rows hAhead
    have hWidth : headers.length = head.length := by
      have hSame := congrArg List.length hHeaders
      rwa [List.length_map, List.length_map] at hSame
    have hLengths : parsed.map List.length = rows.map List.length := by
      have hSame := congrArg (List.map List.length) hParsed
      simpa [Function.comp_def] using hSame
    have hParsedSquare : ∀ row ∈ parsed, row.length = headers.length := by
      intro row hRow
      have hMem : row.length ∈ rows.map List.length := hLengths ▸ List.mem_map_of_mem hRow
      obtain ⟨row', hRow', hEq⟩ := List.mem_map.mp hMem
      rw [← hEq, hSquare row' hRow', hWidth]
    obtain ⟨hHeld, hLists⟩ := @tableBlock_held G _ _ hParsedSquare (aligns.map parseColAlign)
    have hCells : ∀ (cells : List (List Inline)) (trees : List Inlines),
        cells.map collectInlineText = trees.map Inlines.collected →
          cells.flatMap collectInlineText = trees.flatMap Inlines.collected := by
      intro cells trees h
      rw [List.flatMap_def, h, List.flatMap_def]
    refine ⟨(headers, parsed), hRun, ?_, ?_⟩
    · refine (List.append_nil _).trans (hHeld.trans (congrArg₂ (· ++ ·) (hCells _ _ hHeaders) ?_))
      have hFlat := congrArg (List.flatMap List.flatten) hParsed
      simpa [List.flatMap_map, ← List.flatMap_def] using hFlat
    · exact (List.append_nil _).trans hLists
  · intro fuel pos at_ endTag hAt hEvent
    simp only [parseBlocks, hAt, hEvent]
    rfl

theorem leaf_rule : Leaf build events [.rule] [] [] := by
  refine ⟨List.cons_ne_nil _ _, fun pos more hAhead => ?_⟩
  obtain ⟨at_, hAt, hEvent, -⟩ := hAhead.head
  refine ⟨[.located at_.line .thematicBreak], rfl, rfl, fun endTag _ behind last hBehind => ?_⟩
  refine (hBehind.map fun (blocks, pos) => (Block.located at_.line .thematicBreak :: blocks, pos)).step
    fun fuel => ?_
  simp only [parseBlocks, hAt, hEvent]
  rfl

/-- Events between blocks that are no part of any. -/
theorem passed_over {es more : List Event} {endTag : Option TagEnd} (hLevel : QuoteLevel endTag)
    (hHtml : ∀ e ∈ es, e = .start .htmlBlock ∨ e = .stop .htmlBlock ∨ ∃ t, e = .html t)
    (hAhead : Upcoming events pos (es ++ more)) {behind : List (Block G)} {last : Nat}
    (hBehind : Settles (fun fuel => parseBlocks build events fuel (pos + es.length) endTag)
      (behind, last)) : Settles (fun fuel => parseBlocks build events fuel pos endTag) (behind, last) := by
  induction es generalizing pos with
  | nil => exact hBehind
  | cons e es ih =>
    obtain ⟨at_, hAt, hEvent, hNext⟩ := hAhead.head
    have hLength : pos + (e :: es).length = pos + 1 + es.length := by
      rw [List.length_cons]
      omega
    rw [hLength] at hBehind
    have hRest := ih (fun e he => hHtml e (List.mem_cons_of_mem _ he)) hNext hBehind
    refine hRest.step fun fuel => ?_
    rcases hHtml e List.mem_cons_self with rfl | rfl | ⟨t, rfl⟩
    · simp only [parseBlocks, hAt, hEvent]
    · have hNot : ¬ some TagEnd.htmlBlock = endTag := by
        rcases hLevel with rfl | rfl
        · exact fun h => by cases h
        · exact fun h => by cases h
      simp only [parseBlocks, hAt, hEvent, if_neg hNot]
    · simp only [parseBlocks, hAt, hEvent]

theorem leaf_html (texts : List (List Char)) :
    Leaf build events (.start .htmlBlock :: (texts.map .html ++ [.stop .htmlBlock])) [] [] := by
  refine ⟨List.cons_ne_nil _ _, fun pos more hAhead => ⟨[], rfl, rfl, fun endTag hLevel behind last h => ?_⟩⟩
  refine passed_over hLevel ?_ hAhead h
  intro e he
  rcases List.mem_cons.mp he with rfl | he
  · exact .inl rfl
  rcases List.mem_append.mp he with he | he
  · obtain ⟨t, -, rfl⟩ := List.mem_map.mp he
    exact .inr (.inr ⟨t, rfl⟩)
  · exact .inr (.inl (List.mem_singleton.mp he))

/-! Documents as streams. -/

/-- What a document comes to when no list stands in an item. -/
def Blocks.held : Blocks → List Char
  | .nil => []
  | .heading _ body rest => body.held ++ rest.held
  | .paragraph body rest => body.held ++ rest.held
  | .code _ texts rest => popNewline texts.flatten ++ rest.held
  | .html _ rest => rest.held
  | .quote _ body rest => body.held ++ rest.held
  | .list _ items rest => items.helds.flatten ++ rest.held
  | .table _ head rows _ rest =>
    (head.flatMap Inlines.collected ++ rows.flatMap (·.flatMap Inlines.collected)) ++ rest.held
  | .rule rest => rest.held

def Blocks.heldLists : Blocks → List (List (List Char))
  | .nil => []
  | .heading _ _ rest => rest.heldLists
  | .paragraph _ rest => rest.heldLists
  | .code _ _ rest => rest.heldLists
  | .html _ rest => rest.heldLists
  | .quote _ body rest => body.heldLists ++ rest.heldLists
  | .list _ items rest => items.helds :: rest.heldLists
  | .table _ _ _ _ rest => rest.heldLists
  | .rule rest => rest.heldLists

/-- A leaf in front of the blocks behind it. -/
theorem Stream.front {first stop : Event} {body rest : List Event} {text textRest : List Char}
    {lists listsRest : List (List (List Char))}
    (h : Leaf build events (first :: (body ++ [stop])) text lists)
    (hRest : Stream build events rest textRest listsRest) :
    Stream build events (first :: (body ++ stop :: rest)) (text ++ textRest) (lists ++ listsRest) := by
  have hWhole := Stream.leaf h hRest
  rwa [List.cons_append, List.append_assoc] at hWhole

theorem Blocks.stream : (doc : Blocks) → doc.Flat → {es : List Event} → {text : List Char} →
    {lists : List (List (List Char))} → Stream build events es text lists →
    Stream build events (doc.events ++ es) (doc.held ++ text) (doc.heldLists ++ lists)
  | .nil, _, _, _, _, h => h
  | .heading level body rest, hFlat, _, _, _, h => by
    simpa [Blocks.events, Blocks.held, Blocks.heldLists] using
      Stream.front (leaf_heading level body) (stream rest hFlat h)
  | .paragraph body rest, hFlat, _, _, _, h => by
    simpa [Blocks.events, Blocks.held, Blocks.heldLists] using
      Stream.front (leaf_paragraph body) (stream rest hFlat h)
  | .code kind texts rest, hFlat, _, _, _, h => by
    simpa [Blocks.events, Blocks.held, Blocks.heldLists] using
      Stream.front (leaf_code kind texts) (stream rest hFlat h)
  | .html texts rest, hFlat, _, _, _, h => by
    simpa [Blocks.events, Blocks.held, Blocks.heldLists] using
      Stream.front (leaf_html texts) (stream rest hFlat h)
  | .quote kind body rest, hFlat, _, _, _, h => by
    simpa [Blocks.events, Blocks.held, Blocks.heldLists] using
      Stream.start kind (stream body hFlat.1 (Stream.stop kind (stream rest hFlat.2 h)))
  | .list start items rest, hFlat, _, _, _, h => by
    simpa [Blocks.events, Blocks.held, Blocks.heldLists] using
      Stream.front (leaf_list start hFlat.1) (stream rest hFlat.2 h)
  | .table aligns head rows square rest, hFlat, _, _, _, h => by
    simpa [Blocks.events, Blocks.held, Blocks.heldLists] using
      Stream.front (leaf_table aligns square) (stream rest hFlat h)
  | .rule rest, hFlat, _, _, _, h => by
    simpa [Blocks.events, Blocks.held, Blocks.heldLists] using Stream.leaf leaf_rule (stream rest hFlat h)

/-- A document without lists in items is taken whole. -/
theorem flat_parsed {doc : Blocks} (hFlat : doc.Flat) (hEvents : events.map (·.event) = doc.events) :
    ∃ blocks, Settles (fun fuel => parseBlocks build events fuel 0 none) (blocks, events.length) ∧
      heldBlocks blocks = doc.held ∧ listsOf blocks = doc.heldLists := by
  have hStream := @Blocks.stream G build events doc hFlat _ _ _ Stream.nil
  rw [List.append_nil, List.append_nil, List.append_nil] at hStream
  have hAhead : Upcoming events 0 doc.events := hEvents
  obtain ⟨blocks, last, rest, textRest, listsRest, hRun, -, hRest, hLast, -, hText, hLists, hNone⟩ :=
    stream_parsed (doc.events.length + 1) (Nat.lt_succ_self _) hStream hAhead (.inl rfl)
  obtain rfl := hNone rfl
  have hLength : last = events.length := by
    have hSame := congrArg List.length hEvents
    rw [List.length_map] at hSame
    rw [List.length_nil] at hLast
    omega
  obtain ⟨hNoText, hNoLists⟩ := hRest.empty rfl
  rw [hNoText, List.append_nil] at hText
  rw [hNoLists, List.append_nil] at hLists
  exact ⟨blocks, hLength ▸ hRun, hText, hLists⟩

end Levels

end FactorForth.Gui
