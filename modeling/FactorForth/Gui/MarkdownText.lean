import FactorForth.Gui.Markdown
import FactorForth.Library.Fuel

/-! The text of a document through the help viewer's parser. Every event is consumed, no text is lost and
each list has its items, unless a list stands inside an item or a line break inside a span. -/

namespace FactorForth.Gui
open FactorForth.Library

/-! Documents, and the events they are written as. -/

inductive SpanKind where
  | emphasis
  | strong
  | strikethrough
  | link (destUrl : List Char)
  | image (destUrl : List Char)

def SpanKind.tag : SpanKind → Tag
  | .emphasis => .emphasis
  | .strong => .strong
  | .strikethrough => .strikethrough
  | .link url => .link url
  | .image url => .image url

def SpanKind.tagEnd : SpanKind → TagEnd
  | .emphasis => .emphasis
  | .strong => .strong
  | .strikethrough => .strikethrough
  | .link _ => .link
  | .image _ => .image

inductive Inlines where
  | nil
  | text (t : List Char) (rest : Inlines)
  | code (t : List Char) (rest : Inlines)
  | html (t : List Char) (rest : Inlines)
  | softBreak (rest : Inlines)
  | hardBreak (rest : Inlines)
  | span (kind : SpanKind) (body rest : Inlines)

mutual

inductive Blocks where
  | nil
  | heading (level : HeadingLevel) (body : Inlines) (rest : Blocks)
  | paragraph (body : Inlines) (rest : Blocks)
  | code (kind : CodeBlockKind) (texts : List (List Char)) (rest : Blocks)
  | html (texts : List (List Char)) (rest : Blocks)
  | quote (kind : Option BlockQuoteKind) (body rest : Blocks)
  | list (start : Option Nat) (items : Items) (rest : Blocks)
  /-- Every row is as wide as the head. -/
  | table (aligns : List Alignment) (head : List Inlines) (rows : List (List Inlines))
      (square : ∀ row ∈ rows, row.length = head.length) (rest : Blocks)
  | rule (rest : Blocks)

inductive Items where
  | nil
  | item (parts : Parts) (rest : Items)

/-- What stands in an item: bare inlines where the list is tight, else blocks. -/
inductive Parts where
  | nil
  | inlines (body : Inlines) (rest : Parts)
  | blocks (body : Blocks) (rest : Parts)

end

def Inlines.events : Inlines → List Event
  | nil => []
  | text t rest => .text t :: rest.events
  | code t rest => .code t :: rest.events
  | html t rest => .inlineHtml t :: rest.events
  | softBreak rest => .softBreak :: rest.events
  | hardBreak rest => .hardBreak :: rest.events
  | span kind body rest => .start kind.tag :: (body.events ++ .stop kind.tagEnd :: rest.events)

def cellEvents (cell : Inlines) : List Event := .start .tableCell :: (cell.events ++ [.stop .tableCell])

def rowEvents (row : List Inlines) : List Event :=
  .start .tableRow :: (row.flatMap cellEvents ++ [.stop .tableRow])

def tableEvents (head : List Inlines) (rows : List (List Inlines)) : List Event :=
  .start .tableHead :: (head.flatMap cellEvents ++ .stop .tableHead :: rows.flatMap rowEvents)

mutual

def Blocks.events : Blocks → List Event
  | .nil => []
  | .heading level body rest =>
    .start (.heading level) :: (body.events ++ .stop (.heading level) :: rest.events)
  | .paragraph body rest => .start .paragraph :: (body.events ++ .stop .paragraph :: rest.events)
  | .code kind texts rest =>
    .start (.codeBlock kind) :: (texts.map .text ++ .stop .codeBlock :: rest.events)
  | .html texts rest => .start .htmlBlock :: (texts.map .html ++ .stop .htmlBlock :: rest.events)
  | .quote kind body rest =>
    .start (.blockQuote kind) :: (body.events ++ .stop (.blockQuote kind) :: rest.events)
  | .list start items rest =>
    .start (.list start) :: (items.events ++ .stop (.list start.isSome) :: rest.events)
  | .table aligns head rows _ rest =>
    .start (.table aligns) :: (tableEvents head rows ++ .stop .table :: rest.events)
  | .rule rest => .rule :: rest.events

def Items.events : Items → List Event
  | .nil => []
  | .item parts rest => .start .item :: (parts.events ++ .stop .item :: rest.events)

def Parts.events : Parts → List Event
  | .nil => []
  | .inlines body rest => body.events ++ rest.events
  | .blocks body rest => body.events ++ rest.events

end

def eventText : Event → List Char
  | .text t => t
  | .code t => t
  | _ => []

/-- The texts and codes of a stream of events. -/
def streamText (events : List Event) : List Char := events.flatMap eventText

/-- A code block, but for one in an item, has lost the line feed at its end. -/
def Blocks.trimmed : Blocks → Blocks
  | .nil => .nil
  | .heading level body rest => .heading level body rest.trimmed
  | .paragraph body rest => .paragraph body rest.trimmed
  | .code kind texts rest => .code kind [popNewline texts.flatten] rest.trimmed
  | .html texts rest => .html texts rest.trimmed
  | .quote kind body rest => .quote kind body.trimmed rest.trimmed
  | .list start items rest => .list start items rest.trimmed
  | .table aligns head rows square rest => .table aligns head rows square rest.trimmed
  | .rule rest => .rule rest.trimmed

mutual

/-- The text outside lists. -/
def Blocks.ownText : Blocks → List Char
  | .nil => []
  | .heading _ body rest => streamText body.events ++ rest.ownText
  | .paragraph body rest => streamText body.events ++ rest.ownText
  | .code _ texts rest => texts.flatten ++ rest.ownText
  | .html _ rest => rest.ownText
  | .quote _ body rest => body.ownText ++ rest.ownText
  | .list _ _ rest => rest.ownText
  | .table _ head rows _ rest => streamText (tableEvents head rows) ++ rest.ownText
  | .rule rest => rest.ownText

def Parts.ownText : Parts → List Char
  | .nil => []
  | .inlines body rest => streamText body.events ++ rest.ownText
  | .blocks body rest => body.ownText ++ rest.ownText

end

def Items.ownTexts : Items → List (List Char)
  | .nil => []
  | .item parts rest => parts.ownText :: rest.ownTexts

mutual

/-- The lists of a document in the order of their starts, each as the texts of its own items. -/
def Blocks.lists : Blocks → List (List (List Char))
  | .nil => []
  | .heading _ _ rest => rest.lists
  | .paragraph _ rest => rest.lists
  | .code _ _ rest => rest.lists
  | .html _ rest => rest.lists
  | .quote _ body rest => body.lists ++ rest.lists
  | .list _ items rest => items.ownTexts :: (items.lists ++ rest.lists)
  | .table _ _ _ _ rest => rest.lists
  | .rule rest => rest.lists

def Items.lists : Items → List (List (List Char))
  | .nil => []
  | .item parts rest => parts.lists ++ rest.lists

def Parts.lists : Parts → List (List (List Char))
  | .nil => []
  | .inlines _ rest => rest.lists
  | .blocks body rest => body.lists ++ rest.lists

end

/-! What a tree of blocks holds. -/

/-- The text that an inline holds; a line break is no text. -/
def heldInline : Inline → List Char
  | .softBreak => []
  | .hardBreak => []
  | i => inlineText i

def heldInlines (inlines : List Inline) : List Char := inlines.flatMap heldInline

section Held
variable {G : Type}

mutual

/-- The text of a block. That of a toolbar is read as the table stands, the images before the links. -/
def Block.held : Block G → List Char
  | .located _ block => block.held
  | .heading _ inlines => heldInlines inlines
  | .paragraph inlines => heldInlines inlines
  | .codeBlock _ code => code
  | .blockquote blocks => heldBlocks blocks
  | .bulletList items => items.flatMap heldInlines
  | .orderedList _ items => items.flatMap heldInlines
  | .thematicBreak => []
  | .table headers rows _ => headers.flatten ++ rows.flatMap List.flatten
  | .toolbar items => items.flatMap (·.imageAlt) ++ items.flatMap (·.label)
  | .mermaid source _ _ => source

def heldBlocks : List (Block G) → List Char
  | [] => []
  | block :: blocks => block.held ++ heldBlocks blocks

end

mutual

/-- The list blocks, each as the texts of its items. -/
def Block.lists : Block G → List (List (List Char))
  | .located _ block => block.lists
  | .heading _ _ => []
  | .paragraph _ => []
  | .codeBlock _ _ => []
  | .blockquote blocks => listsOf blocks
  | .bulletList items => [items.map heldInlines]
  | .orderedList _ items => [items.map heldInlines]
  | .thematicBreak => []
  | .table _ _ _ => []
  | .toolbar _ => []
  | .mermaid _ _ _ => []

def listsOf : List (Block G) → List (List (List Char))
  | [] => []
  | block :: blocks => block.lists ++ listsOf blocks

end

end Held

/-- The parser ends behind the last event; its blocks hold the text of the stream, and the list blocks
are the lists of the document, each with its own items. -/
def KeepsText {G : Type} (build : List Char → Except String G) (doc : Blocks)
    (events : List LocatedEvent) : Prop :=
  ∃ blocks, Settles (fun fuel => parseBlocks build events fuel 0 none) (blocks, events.length) ∧
    heldBlocks blocks = streamText doc.trimmed.events ∧ listsOf blocks = doc.lists

mutual

def Blocks.NoLists : Blocks → Prop
  | .nil => True
  | .heading _ _ rest => rest.NoLists
  | .paragraph _ rest => rest.NoLists
  | .code _ _ rest => rest.NoLists
  | .html _ rest => rest.NoLists
  | .quote _ body rest => body.NoLists ∧ rest.NoLists
  | .list _ _ _ => False
  | .table _ _ _ _ rest => rest.NoLists
  | .rule rest => rest.NoLists

def Parts.NoLists : Parts → Prop
  | .nil => True
  | .inlines _ rest => rest.NoLists
  | .blocks body rest => body.NoLists ∧ rest.NoLists

end

def Items.NoLists : Items → Prop
  | .nil => True
  | .item parts rest => parts.NoLists ∧ rest.NoLists

/-- No list stands inside an item of another. -/
def Blocks.Flat : Blocks → Prop
  | .nil => True
  | .heading _ _ rest => rest.Flat
  | .paragraph _ rest => rest.Flat
  | .code _ _ rest => rest.Flat
  | .html _ rest => rest.Flat
  | .quote _ body rest => body.Flat ∧ rest.Flat
  | .list _ items rest => items.NoLists ∧ rest.Flat
  | .table _ _ _ _ rest => rest.Flat
  | .rule rest => rest.Flat

def Inlines.breaks : Inlines → Nat
  | nil => 0
  | text _ rest => rest.breaks
  | code _ rest => rest.breaks
  | html _ rest => rest.breaks
  | softBreak rest => rest.breaks + 1
  | hardBreak rest => rest.breaks + 1
  | span _ body rest => body.breaks + rest.breaks

/-- The line breaks inside emphasis, strong text, links and images. -/
def Inlines.spanBreaks : Inlines → Nat
  | nil => 0
  | text _ rest => rest.spanBreaks
  | code _ rest => rest.spanBreaks
  | html _ rest => rest.spanBreaks
  | softBreak rest => rest.spanBreaks
  | hardBreak rest => rest.spanBreaks
  | span .strikethrough body rest => body.spanBreaks + rest.spanBreaks
  | span _ body rest => body.breaks + rest.spanBreaks

def rowsBreaks (count : Inlines → Nat) (head : List Inlines) (rows : List (List Inlines)) : Nat :=
  (head.map count).sum + (rows.flatten.map count).sum

mutual

/-- The line breaks inside spans. -/
def Blocks.spanBreaks : Blocks → Nat
  | .nil => 0
  | .heading _ body rest => body.spanBreaks + rest.spanBreaks
  | .paragraph body rest => body.spanBreaks + rest.spanBreaks
  | .code _ _ rest => rest.spanBreaks
  | .html _ rest => rest.spanBreaks
  | .quote _ body rest => body.spanBreaks + rest.spanBreaks
  | .list _ items rest => items.spanBreaks + rest.spanBreaks
  | .table _ head rows _ rest => rowsBreaks Inlines.spanBreaks head rows + rest.spanBreaks
  | .rule rest => rest.spanBreaks

def Items.spanBreaks : Items → Nat
  | .nil => 0
  | .item parts rest => parts.spanBreaks + rest.spanBreaks

def Parts.spanBreaks : Parts → Nat
  | .nil => 0
  | .inlines body rest => body.spanBreaks + rest.spanBreaks
  | .blocks body rest => body.spanBreaks + rest.spanBreaks

end

/-- The line breaks that become blanks: those inside spans and, outside of items, those in the cells of
tables. -/
def Blocks.blanks : Blocks → Nat
  | .nil => 0
  | .heading _ body rest => body.spanBreaks + rest.blanks
  | .paragraph body rest => body.spanBreaks + rest.blanks
  | .code _ _ rest => rest.blanks
  | .html _ rest => rest.blanks
  | .quote _ body rest => body.blanks + rest.blanks
  | .list _ items rest => items.spanBreaks + rest.blanks
  | .table _ head rows _ rest => rowsBreaks Inlines.breaks head rows + rest.blanks
  | .rule rest => rest.blanks

/-! The events ahead of a position. -/

section Ahead
variable {events : List LocatedEvent} {pos : Nat}

def Upcoming (events : List LocatedEvent) (pos : Nat) (es : List Event) : Prop :=
  (events.drop pos).map LocatedEvent.event = es

theorem Upcoming.head {e : Event} {es : List Event} (h : Upcoming events pos (e :: es)) :
    ∃ at_, events[pos]? = some at_ ∧ at_.event = e ∧ Upcoming events (pos + 1) es := by
  unfold Upcoming at h
  cases hDrop : events.drop pos with
  | nil =>
    rw [hDrop] at h
    cases h
  | cons at_ later =>
    rw [hDrop, List.map_cons] at h
    obtain ⟨hEvent, hLater⟩ := List.cons.inj h
    refine ⟨at_, ?_, hEvent, ?_⟩
    · rw [← List.head?_drop, hDrop]
      rfl
    · rw [Upcoming, ← List.drop_drop, hDrop]
      exact hLater

theorem Upcoming.nil (h : Upcoming events pos []) : events[pos]? = none := by
  rw [← List.head?_drop, List.map_eq_nil_iff.mp h]
  rfl

theorem Upcoming.skip {es more : List Event} (h : Upcoming events pos (es ++ more)) :
    Upcoming events (pos + es.length) more := by
  unfold Upcoming at h ⊢
  rw [← List.drop_drop, List.map_drop, h, List.drop_left]

end Ahead

/-! Inlines. What a run of inlines comes to: a break inside a span is a blank. -/

def Inlines.collected : Inlines → List Char
  | nil => []
  | text t rest => t ++ rest.collected
  | code t rest => t ++ rest.collected
  | html _ rest => rest.collected
  | softBreak rest => ' ' :: rest.collected
  | hardBreak rest => ' ' :: rest.collected
  | span _ body rest => body.collected ++ rest.collected

def Inlines.held : Inlines → List Char
  | nil => []
  | text t rest => t ++ rest.held
  | code t rest => t ++ rest.held
  | html _ rest => rest.held
  | softBreak rest => rest.held
  | hardBreak rest => rest.held
  | span .strikethrough body rest => body.held ++ rest.held
  | span _ body rest => body.collected ++ rest.held

/-- A loop that takes one inline after the other but for the events of `special`. -/
def InlineLoop (events : List LocatedEvent) (special : Event → Prop)
    (loop : (fuel pos : Nat) → Option (List Inline × Nat)) : Prop :=
  ∀ fuel pos e, events[pos]? = some e → ¬ special e.event →
    loop (fuel + 1) pos = (parseOneInline events fuel pos e.event).bind fun (i, pos) =>
      (loop fuel pos).map fun (inlines, pos) => (i.toList ++ inlines, pos)

def isInlineEvent : Event → Bool
  | .text _ => true
  | .code _ => true
  | .inlineHtml _ => true
  | .softBreak => true
  | .hardBreak => true
  | .start .emphasis => true
  | .start .strong => true
  | .start .strikethrough => true
  | .start (.link _) => true
  | .start (.image _) => true
  | .stop .strikethrough => true
  | _ => false

section Runs
variable {events : List LocatedEvent} {pos : Nat}

theorem parseInlines_loop (stop : TagEnd) :
    InlineLoop events (· = .stop stop) (parseInlines events · · stop) := by
  intro fuel pos e hAt hNot
  simp only [parseInlines, hAt, if_neg hNot]

theorem parseInlines_stop {stop : TagEnd} {at_ : LocatedEvent} (hAt : events[pos]? = some at_)
    (hEvent : at_.event = .stop stop) :
    Settles (fun fuel => parseInlines events fuel pos stop) ([], pos + 1) := by
  refine (Settles.done _).step fun fuel => ?_
  simp only [parseInlines, hAt, if_pos hEvent]

theorem collectItemInlines_loop :
    InlineLoop events (fun e => e = .stop .item ∨ e = .start .paragraph)
      (collectItemInlines events) := by
  intro fuel pos e hAt hNot
  rw [not_or] at hNot
  simp only [collectItemInlines, hAt, if_neg hNot.1, if_neg hNot.2]

variable {special : Event → Prop} {loop : (fuel pos : Nat) → Option (List Inline × Nat)}

theorem InlineLoop.one (hLoop : InlineLoop events special loop) {at_ : LocatedEvent}
    (hAt : events[pos]? = some at_) (hNot : ¬ special at_.event) {i : Option Inline} {next : Nat}
    (hOne : Settles (fun fuel => parseOneInline events fuel pos at_.event) (i, next))
    {inlines : List Inline} {last : Nat} (hRest : Settles (fun fuel => loop fuel next) (inlines, last)) :
    Settles (fun fuel => loop fuel pos) (i.toList ++ inlines, last) := by
  refine (hOne.bind ?_).step fun fuel => hLoop fuel pos at_ hAt hNot
  exact hRest.map fun (inlines, pos) => (i.toList ++ inlines, pos)

/-- An event that stands for one inline, or for none. -/
theorem InlineLoop.leaf (hLoop : InlineLoop events special loop) {e : Event} {es : List Event}
    (hAhead : Upcoming events pos (e :: es)) (hNot : ¬ special e) {i : Option Inline}
    (hOne : ∀ fuel, parseOneInline events (fuel + 1) pos e = some (i, pos + 1))
    {inlines : List Inline} {last : Nat}
    (hRest : Settles (fun fuel => loop fuel (pos + 1)) (inlines, last)) :
    Settles (fun fuel => loop fuel pos) (i.toList ++ inlines, last) := by
  obtain ⟨at_, hAt, rfl, -⟩ := hAhead.head
  exact hLoop.one hAt hNot ((Settles.done _).step hOne) hRest

/-- The inline that a span becomes, and none for text struck through. -/
def spanInline : SpanKind → List Inline → Option Inline
  | .emphasis, inlines => some (emphasisInline inlines)
  | .strong, inlines => some (strongInline inlines)
  | .strikethrough, _ => none
  | .link url, inlines => some (.link (collectInlineText inlines) url)
  | .image url, inlines => some (.image (collectInlineText inlines) url)

theorem spanInline_text {kind : SpanKind} (hKind : kind ≠ .strikethrough) (inlines : List Inline) :
    ∃ i, spanInline kind inlines = some i ∧ inlineText i = collectInlineText inlines ∧
      heldInline i = collectInlineText inlines := by
  have hOne : ∀ i : Inline, collectInlineText [i] = inlineText i := fun i => List.append_nil _
  cases kind with
  | strikethrough => exact absurd rfl hKind
  | link url => exact ⟨_, rfl, rfl, rfl⟩
  | image url => exact ⟨_, rfl, rfl, rfl⟩
  | emphasis =>
    refine ⟨_, rfl, ?_⟩
    unfold emphasisInline
    split
    · rw [hOne]
      exact ⟨rfl, rfl⟩
    · exact ⟨rfl, rfl⟩
  | strong =>
    refine ⟨_, rfl, ?_⟩
    unfold strongInline
    split
    · rw [hOne]
      exact ⟨rfl, rfl⟩
    · exact ⟨rfl, rfl⟩

theorem parseOneInline_span {kind : SpanKind} (hKind : kind ≠ .strikethrough) (fuel : Nat) :
    parseOneInline events (fuel + 1) pos (.start kind.tag) =
      (parseInlines events fuel (pos + 1) kind.tagEnd).map fun (inlines, pos) =>
        (spanInline kind inlines, pos) := by
  cases kind with
  | strikethrough => exact absurd rfl hKind
  | _ => rfl

/-- What a loop makes of the inlines ahead, whatever it does behind them. -/
def TakenAs (events : List LocatedEvent) (pos : Nat) (es : List Event) (inlines : List Inline) : Prop :=
  ∀ special loop, InlineLoop events special loop → (∀ e, isInlineEvent e = true → ¬ special e) →
    ∀ behind last, Settles (fun fuel => loop fuel (pos + es.length)) (behind, last) →
      Settles (fun fuel => loop fuel pos) (inlines ++ behind, last)

theorem TakenAs.cons {e : Event} {es more : List Event} (hAhead : Upcoming events pos (e :: (es ++ more)))
    (hEvent : isInlineEvent e = true) {i : Option Inline}
    (hOne : ∀ fuel, parseOneInline events (fuel + 1) pos e = some (i, pos + 1))
    {inlines : List Inline} (h : TakenAs events (pos + 1) es inlines) :
    TakenAs events pos (e :: es) (i.toList ++ inlines) := by
  intro special loop hLoop hSpecial behind last hBehind
  have hLength : pos + (e :: es).length = pos + 1 + es.length := by
    rw [List.length_cons]
    omega
  rw [hLength] at hBehind
  rw [List.append_assoc]
  exact hLoop.leaf hAhead (hSpecial e hEvent) hOne (h special loop hLoop hSpecial behind last hBehind)

theorem TakenAs.append {es es' : List Event} {inlines inlines' : List Inline}
    (h : TakenAs events pos es inlines) (h' : TakenAs events (pos + es.length) es' inlines') :
    TakenAs events pos (es ++ es') (inlines ++ inlines') := by
  intro special loop hLoop hSpecial behind last hBehind
  rw [List.length_append, ← Nat.add_assoc] at hBehind
  rw [List.append_assoc]
  exact h special loop hLoop hSpecial _ last (h' special loop hLoop hSpecial behind last hBehind)

/-- Inlines up to their own end tag are the inlines that they are taken as. -/
theorem TakenAs.parsed {stop : TagEnd} {es more : List Event} {inlines : List Inline}
    (h : TakenAs events pos es inlines) (hAhead : Upcoming events pos (es ++ .stop stop :: more))
    (hStop : stop ≠ .strikethrough) :
    Settles (fun fuel => parseInlines events fuel pos stop) (inlines, pos + (es.length + 1)) := by
  obtain ⟨at_, hAt, hEvent, -⟩ := hAhead.skip.head
  have hSpecial : ∀ e, isInlineEvent e = true → ¬ e = .stop stop := by
    rintro e hInline rfl
    cases stop with
    | strikethrough => exact hStop rfl
    | _ => cases hInline
  have hRun := h _ _ (parseInlines_loop stop) hSpecial [] _ (parseInlines_stop hAt hEvent)
  rwa [List.append_nil] at hRun

/-- A span is taken as one inline. -/
theorem TakenAs.span {kind : SpanKind} (hKind : kind ≠ .strikethrough) {body es more : List Event}
    {inlines inlines' : List Inline} {i : Inline}
    (hAhead : Upcoming events pos (.start kind.tag :: (body ++ .stop kind.tagEnd :: (es ++ more))))
    (hBody : TakenAs events (pos + 1) body inlines) (hInline : spanInline kind inlines = some i)
    (h : TakenAs events (pos + 1 + (body.length + 1)) es inlines') :
    TakenAs events pos (.start kind.tag :: (body ++ .stop kind.tagEnd :: es)) (i :: inlines') := by
  obtain ⟨at_, hAt, hEvent, hNext⟩ := hAhead.head
  have hEnd : kind.tagEnd ≠ .strikethrough := by
    cases kind with
    | strikethrough => exact absurd rfl hKind
    | _ => exact fun h => by cases h
  have hOne : Settles (fun fuel => parseOneInline events fuel pos at_.event)
      (some i, pos + 1 + (body.length + 1)) := by
    rw [hEvent, ← hInline]
    have hParsed := hBody.parsed hNext hEnd
    refine Settles.step ?_ fun fuel => parseOneInline_span hKind fuel
    exact hParsed.map fun (inlines, pos) => (spanInline kind inlines, pos)
  intro special loop hLoop hSpecial behind last hBehind
  have hLength : pos + (Event.start kind.tag :: (body ++ .stop kind.tagEnd :: es)).length =
      pos + 1 + (body.length + 1) + es.length := by
    rw [List.length_cons, List.length_append, List.length_cons]
    omega
  rw [hLength] at hBehind
  have hNot : ¬ special at_.event := by
    rw [hEvent]
    apply hSpecial
    cases kind <;> rfl
  exact hLoop.one hAt hNot hOne (h special loop hLoop hSpecial behind last hBehind)

theorem inlines_taken (tree : Inlines) {pos : Nat} {more : List Event}
    (hAhead : Upcoming events pos (tree.events ++ more)) :
    ∃ inlines, TakenAs events pos tree.events inlines ∧ heldInlines inlines = tree.held ∧
      collectInlineText inlines = tree.collected := by
  induction tree generalizing pos more with
  | nil => exact ⟨[], fun _ _ _ _ _ _ h => h, rfl, rfl⟩
  | text t rest ih =>
    obtain ⟨_, _, _, hNext⟩ := hAhead.head
    obtain ⟨inlines, hTaken, hHeld, hCollected⟩ := ih hNext
    refine ⟨_, hTaken.cons hAhead rfl fun _ => rfl, ?_, ?_⟩
    · exact congrArg (t ++ ·) hHeld
    · exact congrArg (t ++ ·) hCollected
  | code t rest ih =>
    obtain ⟨_, _, _, hNext⟩ := hAhead.head
    obtain ⟨inlines, hTaken, hHeld, hCollected⟩ := ih hNext
    refine ⟨_, hTaken.cons hAhead rfl fun _ => rfl, ?_, ?_⟩
    · exact congrArg (t ++ ·) hHeld
    · exact congrArg (t ++ ·) hCollected
  | html t rest ih =>
    obtain ⟨_, _, _, hNext⟩ := hAhead.head
    obtain ⟨inlines, hTaken, hHeld, hCollected⟩ := ih hNext
    exact ⟨_, hTaken.cons hAhead rfl fun _ => rfl, hHeld, hCollected⟩
  | softBreak rest ih =>
    obtain ⟨_, _, _, hNext⟩ := hAhead.head
    obtain ⟨inlines, hTaken, hHeld, hCollected⟩ := ih hNext
    exact ⟨_, hTaken.cons hAhead rfl fun _ => rfl, hHeld, congrArg (' ' :: ·) hCollected⟩
  | hardBreak rest ih =>
    obtain ⟨_, _, _, hNext⟩ := hAhead.head
    obtain ⟨inlines, hTaken, hHeld, hCollected⟩ := ih hNext
    exact ⟨_, hTaken.cons hAhead rfl fun _ => rfl, hHeld, congrArg (' ' :: ·) hCollected⟩
  | span kind body rest ihBody ihRest =>
    have hSpan : Upcoming events pos
        (.start kind.tag :: (body.events ++ .stop kind.tagEnd :: (rest.events ++ more))) := by
      simpa [Inlines.events] using hAhead
    obtain ⟨_, _, _, hNext⟩ := hSpan.head
    obtain ⟨_, _, _, hRest⟩ := hNext.skip.head
    obtain ⟨inlines, hBody, hHeld, hCollected⟩ := ihBody hNext
    obtain ⟨inlines', hTaken, hHeld', hCollected'⟩ := ihRest hRest
    by_cases hKind : kind = .strikethrough
    · subst hKind
      refine ⟨inlines ++ inlines', ?_, ?_, ?_⟩
      · have hStop := TakenAs.cons hNext.skip rfl (fun _ => rfl) hTaken
        exact TakenAs.cons (by simpa using hSpan) rfl (fun _ => rfl) (hBody.append hStop)
      · rw [heldInlines, List.flatMap_append]
        exact congrArg₂ (· ++ ·) hHeld hHeld'
      · rw [collectInlineText, List.flatMap_append]
        exact congrArg₂ (· ++ ·) hCollected hCollected'
    · obtain ⟨i, hInline, hText, hOwn⟩ := spanInline_text hKind inlines
      refine ⟨i :: inlines', TakenAs.span hKind hSpan hBody hInline hTaken, ?_, ?_⟩
      · have hTree : (Inlines.span kind body rest).held = body.collected ++ rest.held := by
          cases kind with
          | strikethrough => exact absurd rfl hKind
          | _ => rfl
        rw [heldInlines, List.flatMap_cons, hOwn, hCollected, hTree]
        exact congrArg (body.collected ++ ·) hHeld'
      · rw [collectInlineText, List.flatMap_cons, hText, hCollected]
        exact congrArg (body.collected ++ ·) hCollected'

end Runs

/-! Items. -/

theorem heldInlines_append (a b : List Inline) : heldInlines (a ++ b) = heldInlines a ++ heldInlines b :=
  List.flatMap_append

section Items
variable {events : List LocatedEvent}

/-- The events that an item's collector passes over. -/
def isMark : Event → Bool
  | .start (.heading _) => true
  | .start (.codeBlock _) => true
  | .start .htmlBlock => true
  | .start (.blockQuote _) => true
  | .start (.table _) => true
  | .start .tableHead => true
  | .start .tableRow => true
  | .start .tableCell => true
  | .stop (.heading _) => true
  | .stop .codeBlock => true
  | .stop .htmlBlock => true
  | .stop (.blockQuote _) => true
  | .stop .table => true
  | .stop .tableHead => true
  | .stop .tableRow => true
  | .stop .tableCell => true
  | .html _ => true
  | .rule => true
  | _ => false

/-- Events of an item that are collected as inlines with the text `held`. -/
def InItem (events : List LocatedEvent) (es : List Event) (held : List Char) : Prop :=
  ∀ pos more, Upcoming events pos (es ++ more) → ∃ inlines, heldInlines inlines = held ∧
    ∀ behind last, Settles (fun fuel => collectItemInlines events fuel (pos + es.length)) (behind, last) →
      Settles (fun fuel => collectItemInlines events fuel pos) (inlines ++ behind, last)

namespace InItem

theorem nil : InItem events [] [] := fun _ _ _ => ⟨[], rfl, fun _ _ h => h⟩

theorem append {es es' : List Event} {held held' : List Char} (h : InItem events es held)
    (h' : InItem events es' held') : InItem events (es ++ es') (held ++ held') := by
  intro pos more hAhead
  rw [List.append_assoc] at hAhead
  obtain ⟨inlines, hHeld, hRun⟩ := h pos _ hAhead
  obtain ⟨inlines', hHeld', hRun'⟩ := h' _ _ hAhead.skip
  refine ⟨inlines ++ inlines', by rw [heldInlines_append, hHeld, hHeld'], fun behind last hBehind => ?_⟩
  rw [List.length_append, ← Nat.add_assoc] at hBehind
  rw [List.append_assoc]
  exact hRun _ _ (hRun' _ _ hBehind)

theorem cons {e : Event} {es : List Event} {held held' : List Char} (h : InItem events [e] held)
    (h' : InItem events es held') : InItem events (e :: es) (held ++ held') := h.append h'

theorem inlines (tree : Inlines) : InItem events tree.events tree.held := by
  intro pos more hAhead
  obtain ⟨inlines, hTaken, hHeld, -⟩ := inlines_taken tree hAhead
  refine ⟨inlines, hHeld, hTaken _ _ collectItemInlines_loop ?_⟩
  rintro e hInline (rfl | rfl)
  · cases hInline
  · cases hInline

theorem one {e : Event} {i : Option Inline} (hItem : e ≠ .stop .item) (hParagraph : e ≠ .start .paragraph)
    (hOne : ∀ fuel pos, parseOneInline events (fuel + 1) pos e = some (i, pos + 1)) :
    InItem events [e] (heldInlines i.toList) := by
  intro pos more hAhead
  refine ⟨i.toList, rfl, fun behind last hBehind => ?_⟩
  have hNot : ¬ (e = .stop .item ∨ e = .start .paragraph) := not_or.mpr ⟨hItem, hParagraph⟩
  exact collectItemInlines_loop.leaf hAhead hNot (fun fuel => hOne fuel pos) hBehind

/-- The marks of the blocks in an item are passed over. -/
theorem mark {e : Event} (h : isMark e = true) : InItem events [e] [] := by
  have hItem : e ≠ .stop .item := fun hEq => by rw [hEq] at h; cases h
  have hParagraph : e ≠ .start .paragraph := fun hEq => by rw [hEq] at h; cases h
  have hOne : ∀ fuel pos, parseOneInline events (fuel + 1) pos e = some (none, pos + 1) := by
    intro fuel pos
    unfold isMark at h
    split at h
    all_goals first | rfl | cases h
  exact one hItem hParagraph hOne

theorem paragraph (tree : Inlines) :
    InItem events (.start .paragraph :: (tree.events ++ [.stop .paragraph])) tree.held := by
  intro pos more hAhead
  have hWhole : Upcoming events pos (.start .paragraph :: (tree.events ++ .stop .paragraph :: more)) := by
    simpa using hAhead
  obtain ⟨at_, hAt, hEvent, hNext⟩ := hWhole.head
  obtain ⟨inlines, hTaken, hHeld, -⟩ := inlines_taken tree hNext
  have hParsed := hTaken.parsed hNext (by decide)
  refine ⟨inlines, hHeld, fun behind last hBehind => ?_⟩
  have hLength : pos + (Event.start .paragraph :: (tree.events ++ [.stop .paragraph])).length =
      pos + 1 + (tree.events.length + 1) := by
    rw [List.length_cons, List.length_append, List.length_singleton]
    omega
  rw [hLength] at hBehind
  have hStop : ¬ at_.event = .stop .item := by
    rw [hEvent]
    decide
  have hStep : ∀ fuel, collectItemInlines events (fuel + 1) pos =
      (parseInlines events fuel (pos + 1) .paragraph).bind fun (inner, pos) =>
        (collectItemInlines events fuel pos).map fun (inlines, pos) => (inner ++ inlines, pos) := by
    intro fuel
    simp only [collectItemInlines, hAt, if_neg hStop, if_pos hEvent]
  refine (hParsed.bind ?_).step hStep
  exact hBehind.map fun (more, pos) => (inlines ++ more, pos)

/-- Events between marks. -/
theorem between {first last : Event} {es : List Event} {held : List Char}
    (hFirst : isMark first = true) (h : InItem events es held) (hLast : isMark last = true) :
    InItem events (first :: (es ++ [last])) held := by
  have hWhole := (mark hFirst).cons (h.append (mark hLast))
  rwa [List.append_nil] at hWhole

theorem block {first last : Event} {es rest : List Event} {held heldRest : List Char}
    (hFirst : isMark first = true) (h : InItem events es held) (hLast : isMark last = true)
    (hRest : InItem events rest heldRest) :
    InItem events (first :: (es ++ last :: rest)) (held ++ heldRest) :=
  (mark hFirst).cons (h.append ((mark hLast).cons hRest))

theorem flatMap {α : Type} {f : α → List Event} {g : α → List Char} (h : ∀ a, InItem events (f a) (g a)) :
    ∀ xs : List α, InItem events (xs.flatMap f) (xs.flatMap g)
  | [] => nil
  | x :: xs => (h x).append (flatMap h xs)

theorem cell (tree : Inlines) : InItem events (cellEvents tree) tree.held :=
  between rfl (inlines tree) rfl

theorem row (trees : List Inlines) : InItem events (rowEvents trees) (trees.flatMap Inlines.held) :=
  between rfl (flatMap cell trees) rfl

theorem table (head : List Inlines) (rows : List (List Inlines)) :
    InItem events (tableEvents head rows)
      (head.flatMap Inlines.held ++ rows.flatMap (·.flatMap Inlines.held)) :=
  block rfl (flatMap cell head) rfl (flatMap row rows)

theorem texts (ts : List (List Char)) : InItem events (ts.map .text) ts.flatten := by
  have hOne : ∀ t : List Char, InItem events [.text t] t := by
    intro t
    have hText := @one events (.text t) (some (.text t)) (by simp) (by simp) fun _ _ => rfl
    rwa [Option.toList_some, heldInlines, List.flatMap_singleton] at hText
  induction ts with
  | nil => exact nil
  | cons t ts ih => exact (hOne t).cons ih

theorem htmls (ts : List (List Char)) : InItem events (ts.map .html) [] := by
  induction ts with
  | nil => exact nil
  | cons t ts ih => exact (mark rfl).cons ih

end InItem

mutual

/-- What the blocks of an item are collected as. -/
def Blocks.itemHeld : Blocks → List Char
  | .nil => []
  | .heading _ body rest => body.held ++ rest.itemHeld
  | .paragraph body rest => body.held ++ rest.itemHeld
  | .code _ texts rest => texts.flatten ++ rest.itemHeld
  | .html _ rest => rest.itemHeld
  | .quote _ body rest => body.itemHeld ++ rest.itemHeld
  | .list _ _ rest => rest.itemHeld
  | .table _ head rows _ rest =>
    (head.flatMap Inlines.held ++ rows.flatMap (·.flatMap Inlines.held)) ++ rest.itemHeld
  | .rule rest => rest.itemHeld

def Parts.itemHeld : Parts → List Char
  | .nil => []
  | .inlines body rest => body.held ++ rest.itemHeld
  | .blocks body rest => body.itemHeld ++ rest.itemHeld

end

/-- Blocks without lists are collected whole. -/
theorem InItem.blocks : (tree : Blocks) → tree.NoLists → InItem events tree.events tree.itemHeld
  | .nil, _ => nil
  | .heading _ body rest, h => block rfl (inlines body) rfl (blocks rest h)
  | .paragraph body rest, h => by
    have hBlock := (paragraph body).append (blocks rest h)
    simpa [Blocks.events, Blocks.itemHeld] using hBlock
  | .code _ ts rest, h => block rfl (texts ts) rfl (blocks rest h)
  | .html ts rest, h => block rfl (htmls ts) rfl (blocks rest h)
  | .quote _ body rest, h => block rfl (blocks body h.1) rfl (blocks rest h.2)
  | .list _ _ _, h => h.elim
  | .table _ head rows _ rest, h => block rfl (table head rows) rfl (blocks rest h)
  | .rule rest, h => (mark rfl).cons (blocks rest h)

theorem InItem.parts : (tree : Parts) → tree.NoLists → InItem events tree.events tree.itemHeld
  | .nil, _ => nil
  | .inlines body rest, h => (inlines body).append (parts rest h)
  | .blocks body rest, h => (blocks body h.1).append (parts rest h.2)

def Items.helds : Items → List (List Char)
  | .nil => []
  | .item parts rest => parts.itemHeld :: rest.helds

/-- The items of a list without lists in them, each up to its own end. -/
theorem listItems_parsed : (tree : Items) → tree.NoLists → {pos : Nat} → {ordered : Bool} →
    {more : List Event} → Upcoming events pos (tree.events ++ .stop (.list ordered) :: more) →
    ∃ items, items.map heldInlines = tree.helds ∧
      Settles (fun fuel => parseListItems events fuel pos) (items, pos + (tree.events.length + 1))
  | .nil, _, pos, ordered, more, hAhead => by
    obtain ⟨at_, hAt, hEvent, -⟩ := hAhead.head
    refine ⟨[], rfl, (Settles.done _).step fun fuel => ?_⟩
    have hEnd : isListEnd at_.event = true := by
      rw [hEvent]
      rfl
    simp only [parseListItems, hAt, if_pos hEnd]
    rfl
  | .item parts rest, h, pos, ordered, more, hAhead => by
    have hWhole : Upcoming events pos (.start .item :: (parts.events ++
        .stop .item :: (rest.events ++ .stop (.list ordered) :: more))) := by
      simpa [Items.events] using hAhead
    obtain ⟨at_, hAt, hEvent, hNext⟩ := hWhole.head
    obtain ⟨stop, hStopAt, hStop, hRest⟩ := hNext.skip.head
    obtain ⟨inlines, hHeld, hRun⟩ := InItem.parts parts h.1 _ _ hNext
    obtain ⟨items, hItems, hLater⟩ := listItems_parsed rest h.2 hRest
    have hEnd : Settles (fun fuel => collectItemInlines events fuel (pos + 1 + parts.events.length))
        ([], pos + 1 + parts.events.length + 1) := by
      refine (Settles.done _).step fun fuel => ?_
      simp only [collectItemInlines, hStopAt, if_pos hStop]
    have hItem := hRun _ _ hEnd
    rw [List.append_nil] at hItem
    have hStep : ∀ fuel, parseListItems events (fuel + 1) pos =
        (collectItemInlines events fuel (pos + 1)).bind fun item =>
          (parseListItems events fuel item.2).map fun items => (item.1 :: items.1, items.2) := by
      intro fuel
      have hNot : ¬ isListEnd at_.event = true := by
        rw [hEvent]
        decide
      simp only [parseListItems, hAt, if_neg hNot, if_pos hEvent]
    refine ⟨inlines :: items, by rw [List.map_cons, hHeld, hItems, Items.helds], ?_⟩
    have hLast : pos + 1 + parts.events.length + 1 + (rest.events.length + 1) =
        pos + ((Items.item parts rest).events.length + 1) := by
      rw [Items.events, List.length_cons, List.length_append, List.length_cons]
      omega
    rw [← hLast]
    refine (hItem.bind ?_).step hStep
    exact hLater.map fun items => (inlines :: items.1, items.2)

end Items

end FactorForth.Gui
