import FactorForth.Editor.RopeText

/-! The text editor on the buffer: cursor, selection, the commands of keyboard, mouse and menu, and the
history of the edits. -/

namespace FactorForth.Editor

/-! Rows and columns of a text. -/

/-- The offset of the `n`th newline. -/
def nthNewlinePosRaw : List UInt32 → Nat → Option Nat
  | [], _ => none
  | cp :: rest, n =>
    if cp = newline then
      match n with
      | 0 => some 0
      | n + 1 => (nthNewlinePosRaw rest n).map (· + 1)
    else (nthNewlinePosRaw rest n).map (· + 1)

/-- The offset just after the `n`th newline. -/
def nthNewlinePos (text : List UInt32) (n : Nat) : Option Nat :=
  (nthNewlinePosRaw text n).map (· + 1)

def lineCount (text : List UInt32) : Nat := countNewlines text + 1

def lineStart (text : List UInt32) (line : Nat) : Option Nat :=
  if line = 0 then some 0
  else if lineCount text ≤ line then none
  else nthNewlinePos text (line - 1)

def lineRange (text : List UInt32) (line : Nat) : Option (Nat × Nat) :=
  if lineCount text ≤ line then none
  else
    (if line = 0 then some 0 else nthNewlinePos text (line - 1)).map fun start =>
      (start, if line + 1 < lineCount text then (nthNewlinePosRaw text line).getD text.length
        else text.length)

def getLine (text : List UInt32) (line : Nat) : List UInt32 :=
  match lineRange text line with
  | some (s, e) => listSlice text s e
  | none => []

def offsetToLineCol (text : List UInt32) (offset : Nat) : Nat × Nat :=
  let pos := min offset text.length
  let nl := countNewlines (text.take pos)
  let lineStartOff := if nl = 0 then 0 else (nthNewlinePos text (nl - 1)).getD 0
  (nl, pos - lineStartOff)

def lineColToOffset (text : List UInt32) (line col : Nat) : Nat :=
  let start := (lineStart text line).getD text.length
  match lineRange text line with
  | some (s, e) => start + min col (e - s)
  | none => start

def lineLenCps (text : List UInt32) (row : Nat) : Nat :=
  match lineRange text row with
  | some (s, e) => e - s
  | none => 0

def codepointsToUtf8 (cps : List UInt32) : List Char :=
  cps.map fun cp => if h : cp.isValidChar then ⟨cp, h⟩ else '\ufffd'

/-- The code points that the buffer takes for a string. -/
def codepointsOf (text : List Char) : List UInt32 :=
  utf8ToCodepoints (text.flatMap String.utf8EncodeChar)

def tabWidth : Nat := 2

def bufferColToDisplay (line : List Char) (charCol : Nat) : Nat :=
  (line.take charCol).foldl
    (fun col c => if c = '\t' then col + (tabWidth - col % tabWidth) else col + 1) 0

/-- What the scan for an open parenthesis has seen of a line. -/
structure IndentScan where
  depth : Int
  inString : Bool
  afterBackslash : Bool
  inComment : Bool

def IndentScan.step (st : IndentScan) (c : Char) : IndentScan :=
  if st.inComment then st
  else if st.afterBackslash then { st with afterBackslash := false }
  else if c = '\\' ∧ st.inString then { st with afterBackslash := true }
  else if c = '"' then { st with inString := !st.inString }
  else if st.inString then st
  else if c = ';' then { st with inComment := true }
  else if c = '(' then { st with depth := st.depth + 1 }
  else if c = ')' then { st with depth := st.depth - 1 }
  else st

def isWsCp (cp : UInt32) : Bool :=
  cp = 0x20 || cp = 0x09 || cp = 0x0A || cp = 0x0D || cp = 0x0C

/-! The editor. -/

inductive UndoOp where
  | inserted (start : Nat) (text : List UInt32) (cursorBefore cursorAfter : Nat)
  | deleted (start : Nat) (text : List UInt32) (cursorBefore cursorAfter : Nat)
  | replaced (start : Nat) (removed inserted : List UInt32) (cursorBefore cursorAfter : Nat)
deriving DecidableEq, Repr

inductive CoalesceKind where
  | insert
  | backspace
deriving DecidableEq, Repr

/-- The text, and where the cursor is in it. -/
structure Moment where
  text : List UInt32
  cursor : Nat
deriving DecidableEq, Repr

/-- A record of the history. No command reads the two moments, those that the edit was made from and
that it left: the program does not keep them. -/
structure Entry where
  op : UndoOp
  before : Moment
  after : Moment
deriving DecidableEq, Repr

/-- The last record of a history is the head of its list. -/
structure EditorState where
  buffer : List UInt32
  cursor : Nat
  anchor : Nat
  prefCol : Nat
  undo : List Entry
  redo : List Entry
  coalesce : Option CoalesceKind
deriving DecidableEq, Repr

def undoCap : Nat := 1024

namespace EditorState

/-- The state after a file was read. -/
def loadFrom (utf8 : List UInt8) : EditorState := ⟨utf8ToCodepoints utf8, 0, 0, 0, [], [], none⟩

def moment (s : EditorState) : Moment := ⟨s.buffer, s.cursor⟩

def cursorRow (s : EditorState) : Nat := (offsetToLineCol s.buffer s.cursor).1

def cursorCol (s : EditorState) : Nat := (offsetToLineCol s.buffer s.cursor).2

def selectionRange (s : EditorState) : Option (Nat × Nat) :=
  if s.cursor = s.anchor then none
  else if s.anchor < s.cursor then some (s.anchor, s.cursor)
  else some (s.cursor, s.anchor)

/-- Cursor and anchor at one place, with the column remembered. -/
def place (s : EditorState) (offset : Nat) : EditorState :=
  { s with
    cursor := offset, anchor := offset, prefCol := (offsetToLineCol s.buffer offset).2 }

/-! Edits. -/

def spliceInCps (s : EditorState) (offset : Nat) (text : List UInt32) : EditorState :=
  if text.isEmpty then s else { s with buffer := listInsert s.buffer offset text }

def spliceOut (s : EditorState) (lo hi : Nat) : List UInt32 × EditorState :=
  if hi ≤ lo then ([], s)
  else (listSlice s.buffer lo hi, { s with buffer := listDelete s.buffer lo (hi - lo) })

def pushUndo (s : EditorState) (op : UndoOp) (before : Moment) : EditorState :=
  let undo := ⟨op, before, s.moment⟩ :: s.undo
  { s with undo := if undoCap < undo.length then undo.dropLast else undo }

/-- The selection deleted, or nothing where there is none. -/
def deleteSelectionToUndo (s : EditorState) : Option EditorState :=
  s.selectionRange.map fun (lo, hi) =>
    let (removed, t) := s.spliceOut lo hi
    { (t.place lo).pushUndo (.deleted lo removed s.cursor lo) s.moment with coalesce := none }

/-- The last record with the typed text joined to it, where it ends at `start`. -/
def extendInserted (undo : List Entry) (start : Nat) (cps : List UInt32) (after : Moment) :
    Option (List Entry) :=
  match undo with
  | ⟨.inserted prevStart prevText cursorBefore _, before, _⟩ :: rest =>
    if prevStart + prevText.length = start then
      some (⟨.inserted prevStart (prevText ++ cps) cursorBefore after.cursor, before, after⟩ :: rest)
    else none
  | _ => none

/-- The insertion at the cursor, in one record with the typing before it where both are typed. -/
def insertCps (s : EditorState) (cps : List UInt32) (coalesce : Option CoalesceKind) : EditorState :=
  let start := s.cursor
  let t := { (s.spliceInCps start cps).place (start + cps.length) with redo := [] }
  let extended :=
    if coalesce = some .insert ∧ s.coalesce = some .insert then
      extendInserted s.undo start cps t.moment
    else none
  match extended with
  | some undo => { t with undo := undo, coalesce := coalesce }
  | none =>
    { t.pushUndo (.inserted start cps start (start + cps.length)) s.moment with coalesce := coalesce }

def doInsert (s : EditorState) (text : List Char) (coalesce : Option CoalesceKind) : EditorState :=
  let s := s.deleteSelectionToUndo.getD s
  let cps := codepointsOf text
  if cps.isEmpty then s else s.insertCps cps coalesce

def extendDeleted (undo : List Entry) (stop : Nat) (removed : List UInt32) (after : Moment) :
    Option (List Entry) :=
  match undo with
  | ⟨.deleted prevStart prevText cursorBefore _, before, _⟩ :: rest =>
    if prevStart = stop then
      some (⟨.deleted after.cursor (removed ++ prevText) cursorBefore after.cursor, before, after⟩
        :: rest)
    else none
  | _ => none

/-- The deletion of the code point before the cursor, in one record with the backspaces before it. -/
def deleteBack (s : EditorState) : EditorState :=
  let start := s.cursor - 1
  let (removed, t) := s.spliceOut start s.cursor
  let t := { t.place start with redo := [] }
  let extended :=
    if s.coalesce = some .backspace then extendDeleted s.undo s.cursor removed t.moment else none
  match extended with
  | some undo => { t with undo := undo, coalesce := some .backspace }
  | none =>
    { t.pushUndo (.deleted start removed s.cursor start) s.moment with coalesce := some .backspace }

def backspace (s : EditorState) : EditorState :=
  match s.deleteSelectionToUndo with
  | some t => { t with redo := [] }
  | none => if s.cursor = 0 then s else s.deleteBack

def deleteForward (s : EditorState) : EditorState :=
  match s.deleteSelectionToUndo with
  | some t => { t with redo := [] }
  | none =>
    if s.buffer.length ≤ s.cursor then s
    else
      let (removed, t) := s.spliceOut s.cursor (s.cursor + 1)
      { t with redo := [], coalesce := none }.pushUndo
        (.deleted s.cursor removed s.cursor s.cursor) s.moment

def doReplace (s : EditorState) (start stop : Nat) (newCps : List UInt32) (cursorAfter : Nat) :
    EditorState :=
  let (removed, t) := s.spliceOut start stop
  { (t.spliceInCps start newCps).place cursorAfter with redo := [], coalesce := none }.pushUndo
    (.replaced start removed newCps s.cursor cursorAfter) s.moment

/-- What `undo` does to the buffer, and the cursor it restores. -/
def revert (s : EditorState) : UndoOp → EditorState × Nat
  | .inserted start text cursorBefore _ =>
    ((s.spliceOut start (start + text.length)).2, cursorBefore)
  | .deleted start text cursorBefore _ => (s.spliceInCps start text, cursorBefore)
  | .replaced start removed inserted cursorBefore _ =>
    ((s.spliceOut start (start + inserted.length)).2.spliceInCps start removed, cursorBefore)

def undoLast (s : EditorState) : EditorState :=
  match s.undo with
  | [] => s
  | e :: rest =>
    let (t, restoreCursor) := s.revert e.op
    { t.place restoreCursor with coalesce := none, undo := rest, redo := e :: s.redo }

/-- What `redo` does to the buffer, and the cursor it leaves. -/
def reapply (s : EditorState) : UndoOp → EditorState × Nat
  | .inserted start text _ cursorAfter => (s.spliceInCps start text, cursorAfter)
  | .deleted start text _ cursorAfter =>
    ((s.spliceOut start (start + text.length)).2, cursorAfter)
  | .replaced start removed inserted _ cursorAfter =>
    ((s.spliceOut start (start + removed.length)).2.spliceInCps start inserted, cursorAfter)

def redoLast (s : EditorState) : EditorState :=
  match s.redo with
  | [] => s
  | e :: rest =>
    let (t, after) := s.reapply e.op
    { t.place after with coalesce := none, undo := e :: s.undo, redo := rest }

/-! Motions. -/

def setCursorOffset (s : EditorState) (offset : Nat) (extend : Bool) : EditorState :=
  let clamped := min offset s.buffer.length
  { s with cursor := clamped, anchor := if extend then s.anchor else clamped, coalesce := none }

def setCursorRc (s : EditorState) (row col : Nat) (extend : Bool) : EditorState :=
  let r := min row (lineCount s.buffer - 1)
  let c := min col (lineLenCps s.buffer r)
  s.setCursorOffset (lineColToOffset s.buffer r c) extend

def withPrefCol (s : EditorState) (col : Nat) : EditorState := { s with prefCol := col }

/-- The column of the cursor remembered, as a motion along the line does at its end. -/
def rememberCol (s : EditorState) : EditorState := s.withPrefCol s.cursorCol

def moveNextWord (s : EditorState) (extend : Bool) : EditorState :=
  let rest := s.buffer.drop s.cursor
  let word := rest.takeWhile (!isWsCp ·)
  let blank := (rest.dropWhile (!isWsCp ·)).takeWhile isWsCp
  (s.setCursorOffset (s.cursor + word.length + blank.length) extend).rememberCol

def movePrevWord (s : EditorState) (extend : Bool) : EditorState :=
  let prior := (s.buffer.take s.cursor).reverse
  let blank := prior.takeWhile isWsCp
  let word := (prior.dropWhile isWsCp).takeWhile (!isWsCp ·)
  (s.setCursorOffset (s.cursor - blank.length - word.length) extend).rememberCol

def moveLeft (s : EditorState) (extend : Bool) : EditorState :=
  match (if extend then none else s.selectionRange) with
  | some (lo, _) => (s.setCursorOffset lo false).rememberCol
  | none => (if 0 < s.cursor then s.setCursorOffset (s.cursor - 1) extend else s).rememberCol

def moveRight (s : EditorState) (extend : Bool) : EditorState :=
  match (if extend then none else s.selectionRange) with
  | some (_, hi) => (s.setCursorOffset hi false).rememberCol
  | none =>
    (if s.cursor < s.buffer.length then s.setCursorOffset (s.cursor + 1) extend else s).rememberCol

def moveUp (s : EditorState) (extend : Bool) : EditorState :=
  if s.cursorRow = 0 then s
  else (s.setCursorRc (s.cursorRow - 1) s.prefCol extend).withPrefCol s.prefCol

def moveDown (s : EditorState) (extend : Bool) : EditorState :=
  if lineCount s.buffer ≤ s.cursorRow + 1 then s
  else (s.setCursorRc (s.cursorRow + 1) s.prefCol extend).withPrefCol s.prefCol

def moveHome (s : EditorState) (extend : Bool) : EditorState :=
  (s.setCursorRc s.cursorRow 0 extend).withPrefCol 0

def moveEnd (s : EditorState) (extend : Bool) : EditorState :=
  (s.setCursorRc s.cursorRow (lineLenCps s.buffer s.cursorRow) extend).rememberCol

def pageUp (s : EditorState) (visibleRows : Nat) (extend : Bool) : EditorState :=
  (s.setCursorRc (s.cursorRow - max visibleRows 1) s.prefCol extend).withPrefCol s.prefCol

def pageDown (s : EditorState) (visibleRows : Nat) (extend : Bool) : EditorState :=
  let last := lineCount s.buffer - 1
  (s.setCursorRc (min (s.cursorRow + max visibleRows 1) last) s.prefCol extend).withPrefCol s.prefCol

def selectAll (s : EditorState) : EditorState :=
  { s with anchor := 0, cursor := s.buffer.length, coalesce := none }.rememberCol

/-- A click, on the row and column under the pointer. -/
def click (s : EditorState) (row col : Nat) (extend : Bool) : EditorState :=
  (s.setCursorRc row col extend).rememberCol

def dragTo (s : EditorState) (row col : Nat) : EditorState :=
  let offset := lineColToOffset s.buffer row (min col (lineLenCps s.buffer row))
  { s with cursor := offset, coalesce := none }.rememberCol

/-! Typing and the clipboard. -/

def insertChar (s : EditorState) (c : Char) : EditorState := s.doInsert [c] (some .insert)

def insertStr (s : EditorState) (text : List Char) : EditorState :=
  if text.isEmpty then s else s.doInsert text none

def computeAutoIndent (s : EditorState) : List Char :=
  if lineCount s.buffer ≤ s.cursorRow then []
  else
    let line := codepointsToUtf8 (getLine s.buffer s.cursorRow)
    let leading := line.takeWhile fun c => c = ' ' || c = '\t'
    let scan := (line.take s.cursorCol).foldl IndentScan.step ⟨0, false, false, false⟩
    if 0 < scan.depth then leading ++ [' ', ' '] else leading

def insertNewline (s : EditorState) : EditorState := s.doInsert ('\n' :: s.computeAutoIndent) none

/-- The spaces up to the next tab stop. -/
def insertTab (s : EditorState) : EditorState :=
  let line := codepointsToUtf8 (getLine s.buffer s.cursorRow)
  let pad := tabWidth - bufferColToDisplay line s.cursorCol % tabWidth
  s.insertStr (List.replicate pad ' ')

/-- Cut, with whether the clipboard took the text. -/
def cut (s : EditorState) (clipboardSet : Bool) : EditorState :=
  if s.selectionRange.isNone then s
  else if !clipboardSet then s
  else { s.deleteSelectionToUndo.getD s with redo := [], coalesce := none }

def paste (s : EditorState) (clipboard : Option (List Char)) : EditorState :=
  match clipboard with
  | none => s
  | some text => if text.isEmpty then s else s.doInsert text none

end EditorState

/-! The commands. -/

inductive Key where
  | left
  | right
  | up
  | down
  | home
  | end_
  | prior
  | next
  | delete
  | f8
  /-- A key that leaves the buffer and the cursor as they are. -/
  | other
deriving DecidableEq, Repr

inductive EditMenu where
  | undo
  | redo
  | cut
  | paste
  | selectAll
  | nextWord
  | prevWord
  /-- An item that leaves the buffer and the cursor as they are. -/
  | other
deriving DecidableEq, Repr

/-- What the window system answers while a command runs. -/
structure Desktop where
  shift : Bool
  ctrl : Bool
  /-- What `clipboard_get` gives. -/
  clipboard : Option (List Char)
  /-- Whether `clipboard_set` succeeds. -/
  clipboardSet : Bool
  visibleRows : Nat
  /-- The row and column of the next diagnostic. -/
  nextDiagnostic : Option (Nat × Nat)
deriving Repr

inductive Command where
  | char (c : Char)
  | key (k : Key)
  | menu (item : EditMenu)
  | click (row col : Nat)
  | drag (row col : Nat)
deriving Repr

namespace EditorState

def handleChar (s : EditorState) (d : Desktop) (c : Char) : EditorState :=
  if c.toNat = 0x01 then s.selectAll
  else if c.toNat = 0x03 then s
  else if c.toNat = 0x0F then s
  else if c.toNat = 0x13 then s
  else if c.toNat = 0x16 then s.paste d.clipboard
  else if c.toNat = 0x12 then s
  else if c.toNat = 0x18 then s.cut d.clipboardSet
  else if c.toNat = 0x19 then s.redoLast
  else if c.toNat = 0x1A then s.undoLast
  else if c = '\r' then s.insertNewline
  else if c = '\n' then s
  else if c = '\t' then s.insertTab
  else if c.toNat = 0x08 then s.backspace
  else if c.toNat < 0x20 then s
  else s.insertChar c

def handleKey (s : EditorState) (d : Desktop) : Key → EditorState
  | .left => if d.ctrl then s.movePrevWord d.shift else s.moveLeft d.shift
  | .right => if d.ctrl then s.moveNextWord d.shift else s.moveRight d.shift
  | .up => s.moveUp d.shift
  | .down => s.moveDown d.shift
  | .home => s.moveHome d.shift
  | .end_ => s.moveEnd d.shift
  | .prior => s.pageUp d.visibleRows d.shift
  | .next => s.pageDown d.visibleRows d.shift
  | .delete => if d.shift ∧ s.selectionRange.isSome then s.cut d.clipboardSet else s.deleteForward
  | .f8 =>
    match d.nextDiagnostic with
    | some (row, col) => (s.setCursorRc row col false).rememberCol
    | none => s
  | .other => s

def handleEditMenu (s : EditorState) (d : Desktop) : EditMenu → EditorState
  | .undo => s.undoLast
  | .redo => s.redoLast
  | .cut => s.cut d.clipboardSet
  | .paste => s.paste d.clipboard
  | .selectAll => s.selectAll
  | .nextWord => s.moveNextWord false
  | .prevWord => s.movePrevWord false
  | .other => s

def step (s : EditorState) : Desktop × Command → EditorState
  | (d, .char c) => s.handleChar d c
  | (d, .key k) => s.handleKey d k
  | (d, .menu item) => s.handleEditMenu d item
  | (d, .click row col) => s.click row col d.shift
  | (_, .drag row col) => s.dragTo row col

end EditorState
end FactorForth.Editor
