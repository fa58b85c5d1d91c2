import FactorForth.Compiler.Parse

/-! The help viewer's parser: Markdown events to a tree of blocks. All consumers share one position in the
event list, and each goes on to its own end tag. `fuel` bounds the loops and the recursion. -/

namespace FactorForth.Gui
open FactorForth.Compiler (isWhitespace lower)

inductive HeadingLevel where
  | h1 | h2 | h3 | h4 | h5 | h6
deriving DecidableEq, Repr

inductive BlockQuoteKind where
  | note | tip | important | warning | caution
deriving DecidableEq, Repr

inductive CodeBlockKind where
  | indented
  | fenced (info : List Char)
deriving DecidableEq, Repr

inductive Alignment where
  | none | left | center | right
deriving DecidableEq, Repr

inductive Tag where
  | paragraph
  | heading (level : HeadingLevel)
  | blockQuote (kind : Option BlockQuoteKind)
  | codeBlock (kind : CodeBlockKind)
  | htmlBlock
  | list (start : Option Nat)
  | item
  | table (aligns : List Alignment)
  | tableHead
  | tableRow
  | tableCell
  | emphasis
  | strong
  | strikethrough
  | link (destUrl : List Char)
  | image (destUrl : List Char)
deriving DecidableEq, Repr

inductive TagEnd where
  | paragraph
  | heading (level : HeadingLevel)
  | blockQuote (kind : Option BlockQuoteKind)
  | codeBlock
  | htmlBlock
  | list (ordered : Bool)
  | item
  | table
  | tableHead
  | tableRow
  | tableCell
  | emphasis
  | strong
  | strikethrough
  | link
  | image
deriving DecidableEq, Repr

inductive Event where
  | start (tag : Tag)
  | stop (tag : TagEnd)
  | text (t : List Char)
  | code (t : List Char)
  | html (t : List Char)
  | inlineHtml (t : List Char)
  | softBreak
  | hardBreak
  | rule
deriving DecidableEq, Repr

structure LocatedEvent where
  event : Event
  line : Nat
deriving DecidableEq, Repr

inductive Inline where
  | text (t : List Char)
  | bold (t : List Char)
  | italic (t : List Char)
  | boldItalic (t : List Char)
  | code (t : List Char)
  | link (text href : List Char)
  | image (alt src : List Char)
  | softBreak
  | hardBreak
deriving DecidableEq, Repr

inductive ColAlign where
  | none | left | center | right
deriving DecidableEq, Repr

structure ToolbarItem where
  imagePath : List Char
  imageAlt : List Char
  label : List Char
  href : List Char
deriving DecidableEq, Repr

/-- `G` is a diagram laid out. -/
inductive Block (G : Type) where
  | located (line : Nat) (block : Block G)
  | heading (level : Nat) (inlines : List Inline)
  | paragraph (inlines : List Inline)
  | codeBlock (lang code : List Char)
  | blockquote (blocks : List (Block G))
  | bulletList (items : List (List Inline))
  | orderedList (start : Nat) (items : List (List Inline))
  | thematicBreak
  | table (headers : List (List Char)) (rows : List (List (List Char))) (alignments : List ColAlign)
  | toolbar (items : List ToolbarItem)
  | mermaid (source : List Char) (graph : Option G) (error : Option String)

def inlineText : Inline → List Char
  | .text t => t
  | .bold t => t
  | .italic t => t
  | .boldItalic t => t
  | .code t => t
  | .link text _ => text
  | .image alt _ => alt
  | .softBreak => [' ']
  | .hardBreak => [' ']

def collectInlineText (inlines : List Inline) : List Char := inlines.flatMap inlineText

def hl : HeadingLevel → Nat
  | .h1 => 1
  | .h2 => 2
  | .h3 => 3
  | .h4 => 4
  | .h5 => 5
  | .h6 => 6

def headingLevel : Nat → HeadingLevel
  | 1 => .h1
  | 2 => .h2
  | 3 => .h3
  | 4 => .h4
  | 5 => .h5
  | _ => .h6

def strongInline : List Inline → Inline
  | [.italic t] => .boldItalic t
  | inlines => .bold (collectInlineText inlines)

def emphasisInline : List Inline → Inline
  | [.bold t] => .boldItalic t
  | inlines => .italic (collectInlineText inlines)

/-! Inlines. -/

section Inlines
variable (events : List LocatedEvent)

mutual

def parseInlines : (fuel pos : Nat) → TagEnd → Option (List Inline × Nat)
  | 0, _, _ => none
  | fuel + 1, pos, stop =>
    match events[pos]? with
    | none => some ([], pos)
    | some e =>
      if e.event = .stop stop then some ([], pos + 1)
      else
        (parseOneInline fuel pos e.event).bind fun (i, pos) =>
          (parseInlines fuel pos stop).map fun (inlines, pos) => (i.toList ++ inlines, pos)

/-- `event` is the one at `pos`. -/
def parseOneInline : (fuel pos : Nat) → (event : Event) → Option (Option Inline × Nat)
  | 0, _, _ => none
  | fuel + 1, pos, event =>
    match event with
    | .text t => some (some (.text t), pos + 1)
    | .code t => some (some (.code t), pos + 1)
    | .softBreak => some (some .softBreak, pos + 1)
    | .hardBreak => some (some .hardBreak, pos + 1)
    | .start .strong =>
      (parseInlines fuel (pos + 1) .strong).map fun (inlines, pos) => (some (strongInline inlines), pos)
    | .start .emphasis =>
      (parseInlines fuel (pos + 1) .emphasis).map fun (inlines, pos) =>
        (some (emphasisInline inlines), pos)
    | .start (.link destUrl) =>
      (parseInlines fuel (pos + 1) .link).map fun (inlines, pos) =>
        (some (.link (collectInlineText inlines) destUrl), pos)
    | .start (.image destUrl) =>
      (parseInlines fuel (pos + 1) .image).map fun (inlines, pos) =>
        (some (.image (collectInlineText inlines) destUrl), pos)
    | _ => some (none, pos + 1)

end

/-! Lists. -/

def collectItemInlines : (fuel pos : Nat) → Option (List Inline × Nat)
  | 0, _ => none
  | fuel + 1, pos =>
    match events[pos]? with
    | none => some ([], pos)
    | some e =>
      if e.event = .stop .item then some ([], pos + 1)
      else if e.event = .start .paragraph then
        (parseInlines events fuel (pos + 1) .paragraph).bind fun (inner, pos) =>
          (collectItemInlines fuel pos).map fun (inlines, pos) => (inner ++ inlines, pos)
      else
        (parseOneInline events fuel pos e.event).bind fun (i, pos) =>
          (collectItemInlines fuel pos).map fun (inlines, pos) => (i.toList ++ inlines, pos)

def isListEnd : Event → Bool
  | .stop (.list _) => true
  | _ => false

def parseListItems : (fuel pos : Nat) → Option (List (List Inline) × Nat)
  | 0, _ => none
  | fuel + 1, pos =>
    match events[pos]? with
    | none => some ([], pos)
    | some e =>
      if isListEnd e.event then some ([], pos + 1)
      else if e.event = .start .item then
        (collectItemInlines events fuel (pos + 1)).bind fun (item, pos) =>
          (parseListItems fuel pos).map fun (items, pos) => (item :: items, pos)
      else parseListItems fuel (pos + 1)

/-! Tables. -/

/-- One list of inlines a cell. -/
def parseTableRowInlines : (fuel pos : Nat) → TagEnd → Option (List (List Inline) × Nat)
  | 0, _, _ => none
  | fuel + 1, pos, stop =>
    match events[pos]? with
    | none => some ([], pos)
    | some e =>
      if e.event = .stop stop then some ([], pos + 1)
      else if e.event = .start .tableCell then
        (parseInlines events fuel (pos + 1) .tableCell).bind fun (cell, pos) =>
          (parseTableRowInlines fuel pos stop).map fun (cells, pos) => (cell :: cells, pos)
      else parseTableRowInlines fuel (pos + 1) stop

/-- The loop over the rows; the accumulators are the cells of the head and those of the rows. -/
def parseTableRows : (fuel pos : Nat) → (headerCells : List (List Inline)) →
    (rowCells : List (List (List Inline))) →
    Option ((List (List Inline) × List (List (List Inline))) × Nat)
  | 0, _, _, _ => none
  | fuel + 1, pos, headerCells, rowCells =>
    match events[pos]? with
    | none => some ((headerCells, rowCells), pos)
    | some e =>
      if e.event = .stop .table then some ((headerCells, rowCells), pos + 1)
      else if e.event = .start .tableHead then
        (parseTableRowInlines events fuel (pos + 1) .tableHead).bind fun (cells, pos) =>
          parseTableRows fuel pos cells rowCells
      else if e.event = .start .tableRow then
        (parseTableRowInlines events fuel (pos + 1) .tableRow).bind fun (cells, pos) =>
          parseTableRows fuel pos headerCells (rowCells ++ [cells])
      else parseTableRows fuel (pos + 1) headerCells rowCells

end Inlines

def isLoneImage : List Inline → Bool
  | [.image _ _] => true
  | _ => false

def isLoneLink : List Inline → Bool
  | [.link _ _] => true
  | _ => false

def toolbarItem : List Inline → List Inline → Option ToolbarItem
  | .image alt src :: _, .link text href :: _ => some ⟨src, alt, text, href⟩
  | _, _ => none

def parseColAlign : Alignment → ColAlign
  | .left => .left
  | .center => .center
  | .right => .right
  | .none => .none

section Blocks
variable {G : Type} (build : List Char → Except String G)

/-- A head of lone images over one row of lone links is a toolbar. -/
def tableBlock (headerCells : List (List Inline)) (rowCells : List (List (List Inline)))
    (alignments : List ColAlign) : Block G :=
  match rowCells with
  | [row] =>
    if headerCells ≠ [] ∧ headerCells.all isLoneImage = true ∧ row.all isLoneLink = true then
      .toolbar ((headerCells.zip row).filterMap fun (hc, rc) => toolbarItem hc rc)
    else
      .table (headerCells.map collectInlineText) (rowCells.map fun row => row.map collectInlineText)
        alignments
  | _ =>
    .table (headerCells.map collectInlineText) (rowCells.map fun row => row.map collectInlineText)
      alignments

def codeLang : CodeBlockKind → List Char
  | .fenced info => (info.dropWhile isWhitespace).takeWhile (!isWhitespace ·)
  | .indented => []

/-- `code.pop()` where the text ends in a line feed. -/
def popNewline (code : List Char) : List Char :=
  if code.getLast? = some '\n' then code.dropLast else code

def codeBlock (lang code : List Char) : Block G :=
  if lower (String.ofList lang) = "mermaid" then
    match build code with
    | .ok g => .mermaid code (some g) none
    | .error e => .mermaid code none (some e)
  else .codeBlock lang code

variable (events : List LocatedEvent)

/-- The texts up to the end of the code block. -/
def parseCode : (fuel pos : Nat) → Option (List Char × Nat)
  | 0, _ => none
  | fuel + 1, pos =>
    match events[pos]? with
    | none => some ([], pos)
    | some e =>
      match e.event with
      | .text t => (parseCode fuel (pos + 1)).map fun (code, pos) => (t ++ code, pos)
      | .stop .codeBlock => some ([], pos + 1)
      | _ => parseCode fuel (pos + 1)

def parseBlocks : (fuel pos : Nat) → (endTag : Option TagEnd) → Option (List (Block G) × Nat)
  | 0, _, _ => none
  | fuel + 1, pos, endTag =>
    let push (line pos : Nat) (block : Block G) : Option (List (Block G) × Nat) :=
      (parseBlocks fuel pos endTag).map fun (blocks, pos) => (.located line block :: blocks, pos)
    match events[pos]? with
    | none => some ([], pos)
    | some e =>
      match e.event with
      | .stop t => if some t = endTag then some ([], pos + 1) else parseBlocks fuel (pos + 1) endTag
      | .start (.heading level) =>
        (parseInlines events fuel (pos + 1) (.heading (headingLevel (hl level)))).bind fun (inlines, pos) =>
          push e.line pos (.heading (hl level) inlines)
      | .start .paragraph =>
        (parseInlines events fuel (pos + 1) .paragraph).bind fun (inlines, pos) =>
          if inlines = [] then parseBlocks fuel pos endTag else push e.line pos (.paragraph inlines)
      | .start (.codeBlock kind) =>
        (parseCode events fuel (pos + 1)).bind fun (code, pos) =>
          push e.line pos (codeBlock build (codeLang kind) (popNewline code))
      | .start (.blockQuote _) =>
        (parseBlocks fuel (pos + 1) (some (.blockQuote none))).bind fun (inner, pos) =>
          push e.line pos (.blockquote inner)
      | .start (.list start) =>
        (parseListItems events fuel (pos + 1)).bind fun (items, pos) =>
          push e.line pos (if start.isSome then .orderedList (start.getD 1) items else .bulletList items)
      | .start (.table aligns) =>
        (parseTableRows events fuel (pos + 1) [] []).bind fun ((headers, rows), pos) =>
          push e.line pos (tableBlock headers rows (aligns.map parseColAlign))
      | .rule => push e.line (pos + 1) .thematicBreak
      | _ => parseBlocks fuel (pos + 1) endTag

end Blocks

end FactorForth.Gui
