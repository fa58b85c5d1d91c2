import FactorForth.Library.BytePos
import FactorForth.Library.Runs
import FactorForth.Compiler.Driver

/-! The input line of a REPL pane: a string with a cursor counted in bytes, and the keys that edit it. A
slice, an insertion or a removal that is not at boundaries of the string is a panic. -/

namespace FactorForth.Gui
open FactorForth.Library FactorForth.Compiler

/-! Strings. -/

def strBefore (s : List Char) (i : Nat) : Option (List Char) := (splitAtByte s i).map Prod.fst

def strBehind (s : List Char) (i : Nat) : Option (List Char) := (splitAtByte s i).map Prod.snd

def insertStr (s : List Char) (i : Nat) (t : List Char) : Option (List Char) :=
  (splitAtByte s i).map fun p => p.1 ++ t ++ p.2

/-- `s[i..j]` with what is in front of it and behind it. -/
def cutStr (s : List Char) (i j : Nat) : Option (List Char × List Char × List Char) :=
  if i ≤ j then (splitAtByte s i).bind fun p =>
    (splitAtByte p.2 (j - i)).map fun q => (p.1, q.1, q.2)
  else none

def drainStr (s : List Char) (i j : Nat) : Option (List Char) :=
  (cutStr s i j).map fun p => p.1 ++ p.2.2

/-- The byte index of the first line feed. -/
def findNewline : List Char → Option Nat
  | [] => none
  | c :: cs => if c = '\n' then some 0 else (findNewline cs).map (c.utf8Size + ·)

/-- The byte index of the last one. -/
def rfindNewline : List Char → Option Nat
  | [] => none
  | c :: cs =>
    match rfindNewline cs with
    | some i => some (c.utf8Size + i)
    | none => if c = '\n' then some 0 else none

/-- The loop from `i` down to a boundary. -/
def boundaryDown (s : List Char) : Nat → Nat
  | 0 => 0
  | i + 1 => if isCharBoundary s (i + 1) then i + 1 else boundaryDown s i

def boundaryUp (s : List Char) (i : Nat) : Nat :=
  if i ≤ byteLen s ∧ isCharBoundary s i = false then boundaryUp s (i + 1) else i
termination_by byteLen s + 1 - i

def nextCharBoundary (s : List Char) (pos : Nat) : Nat := min (boundaryUp s (pos + 1)) (byteLen s)

/-! Whether an input is a whole form, and the indentation of a continued one. -/

inductive FormStatus where
  | complete
  | incomplete
  | inString
deriving DecidableEq, Repr

inductive FormState where
  | code
  | lineComment
  | parenComment
  | string

def codeStatus (defDepth : Int) : FormStatus := if 0 < defDepth then .incomplete else .complete

/-- The words that open a string literal. -/
def stringOpeners : List String := ["s\"", ".\"", "c\"", "s$\"", "abort\""]

theorem drop_dropWhile_lt {p : Char → Bool} (c : Char) (cs : List Char) :
    (((c :: cs).dropWhile p).drop 1).length < (c :: cs).length := by
  have hLen := (List.dropWhile_suffix p (l := c :: cs)).length_le
  rw [List.length_drop]
  rw [List.length_cons] at hLen ⊢
  omega

theorem dropWhile_token_lt {p : Char → Bool} {cs token : List Char} {c : Char}
    (h : cs.dropWhile p = c :: token) : ((c :: token).dropWhile (!p ·)).length < cs.length := by
  have hHead : p c = false := by
    have hNot := List.head_dropWhile_not p (l := cs) (by rw [h]; exact List.cons_ne_nil _ _)
    simpa [h] using hNot
  have hSkip := (List.dropWhile_suffix p (l := cs)).length_le
  have hRest := (List.dropWhile_suffix (!p ·) (l := token)).length_le
  rw [h, List.length_cons] at hSkip
  rw [List.dropWhile_cons, hHead, Bool.not_false, if_pos rfl]
  omega

/-- The scan of the trimmed input, a word or a comment or a string at a time. -/
def formScan (state : FormState) (defDepth : Int) (cs : List Char) : FormStatus :=
  match cs with
  | [] =>
    match state with
    | .string => .inString
    | .parenComment => .incomplete
    | .lineComment => .complete
    | .code => codeStatus defDepth
  | c :: cs =>
    match state with
    | .lineComment => formScan .code defDepth (((c :: cs).dropWhile (· != '\n')).drop 1)
    | .parenComment =>
      if (c :: cs).contains ')' then
        formScan .code defDepth (((c :: cs).dropWhile (· != ')')).drop 1)
      else .incomplete
    | .string =>
      if (c :: cs).contains '"' then
        formScan .code defDepth (((c :: cs).dropWhile (· != '"')).drop 1)
      else .inString
    | .code =>
      match h : (c :: cs).dropWhile isAsciiWhitespace with
      | [] => codeStatus defDepth
      | d :: token =>
        let tok := lower (String.ofList ((d :: token).takeWhile (!isAsciiWhitespace ·)))
        let behind := (d :: token).dropWhile (!isAsciiWhitespace ·)
        if tok = ":" then formScan .code (defDepth + 1) behind
        else if tok = ";" then
          if defDepth - 1 < 0 then .complete else formScan .code (defDepth - 1) behind
        else if tok = "\\" then formScan .lineComment defDepth behind
        else if tok = "(" then formScan .parenComment defDepth behind
        else if stringOpeners.contains tok then formScan .string defDepth behind
        else formScan .code defDepth behind
termination_by cs.length
decreasing_by
  all_goals first
    | exact drop_dropWhile_lt _ _
    | exact dropWhile_token_lt h

def formComplete (s : List Char) : FormStatus :=
  if (trim s).isEmpty then .complete else formScan .code 0 (trim s)

def trimEnd (cs : List Char) : List Char := (cs.reverse.dropWhile isWhitespace).reverse

/-- The blanks that the last line starts with, and two more behind an open parenthesis. -/
def computeIndent (before : List Char) : List Char :=
  let lastLine := (before.splitOn '\n').getLastD []
  lastLine.takeWhile isWhitespace ++
    if (trimEnd lastLine).getLast? = some '(' then [' ', ' '] else []

/-! The pane. -/

structure ReplInput where
  input : List Char
  cursorByte : Nat
  history : List (List Char)
  historyIdx : Option Nat
  savedInput : List Char

namespace ReplInput
variable (s : ReplInput)

def new : ReplInput := ⟨[], 0, [], none, []⟩

def insertChar (c : Char) : Option ReplInput :=
  (insertStr s.input s.cursorByte [c]).map fun input =>
    { s with input, cursorByte := s.cursorByte + c.utf8Size, historyIdx := none }

def deleteBack : Option ReplInput :=
  if s.cursorByte = 0 then some s
  else
    let i := boundaryDown s.input (s.cursorByte - 1)
    (drainStr s.input i s.cursorByte).map fun input => { s with input, cursorByte := i }

def deleteForward : Option ReplInput :=
  if byteLen s.input ≤ s.cursorByte then some s
  else
    (drainStr s.input s.cursorByte (nextCharBoundary s.input s.cursorByte)).map fun input =>
      { s with input }

def moveLeft : ReplInput :=
  if s.cursorByte = 0 then s
  else { s with cursorByte := boundaryDown s.input (s.cursorByte - 1) }

def moveRight : ReplInput :=
  if byteLen s.input ≤ s.cursorByte then s
  else { s with cursorByte := nextCharBoundary s.input s.cursorByte }

/-- Where the cursor's line starts. -/
def lineStart : Option Nat :=
  (strBefore s.input s.cursorByte).map fun before =>
    match rfindNewline before with
    | some nl => nl + 1
    | none => 0

def moveHome : Option ReplInput := s.lineStart.map fun i => { s with cursorByte := i }

def moveEnd : Option ReplInput :=
  (strBehind s.input s.cursorByte).map fun behind =>
    match findNewline behind with
    | some nl => { s with cursorByte := s.cursorByte + nl }
    | none => { s with cursorByte := byteLen s.input }

def moveWordRight : Option ReplInput :=
  (strBehind s.input s.cursorByte).bind fun behind =>
    let skipWs := byteLen (behind.takeWhile isWhitespace)
    (strBehind behind skipWs).map fun word =>
      { s with
        cursorByte := s.cursorByte + (skipWs + byteLen (word.takeWhile (!isWhitespace ·))) }

/-- A loop over the characters that `p` holds of; the character that ends it is taken as well. -/
def skipWhile (p : Char → Bool) : List Char → Nat → Nat × List Char
  | [], skip => (skip, [])
  | c :: it, skip => if p c then skipWhile p it (skip + c.utf8Size) else (skip, it)

def moveWordLeft : Option ReplInput :=
  (strBefore s.input s.cursorByte).bind fun before =>
    let (skip, it) := skipWhile isWhitespace before.reverse 0
    let (skip, _) := skipWhile (!isWhitespace ·) it skip
    if skip ≤ s.cursorByte then some { s with cursorByte := s.cursorByte - skip } else none

/-- The history entry at an index, which is a panic when there is none. -/
def showEntry (idx : Nat) : Option ReplInput :=
  s.history[idx]?.map fun entry =>
    { s with input := entry, cursorByte := byteLen entry, historyIdx := some idx }

def historyUp : Option ReplInput :=
  if s.history.isEmpty then some s
  else
    match s.historyIdx with
    | none => { s with savedInput := s.input }.showEntry (s.history.length - 1)
    | some 0 => some s
    | some (i + 1) => s.showEntry i

def historyDown : Option ReplInput :=
  match s.historyIdx with
  | none => some s
  | some i =>
    if s.history.length ≤ i + 1 then
      some { s with
        input := s.savedInput, cursorByte := byteLen s.savedInput, historyIdx := none
        savedInput := [] }
    else s.showEntry (i + 1)

def insertChars : List Char → ReplInput → Option ReplInput
  | [], s => some s
  | c :: cs, s => (s.insertChar c).bind (insertChars cs)

/-- The state behind Enter, and the input if it was submitted. -/
def trySubmit : Option (ReplInput × Option (List Char)) :=
  if (trim s.input).isEmpty then some ({ s with input := [], cursorByte := 0 }, none)
  else
    match formComplete s.input with
    | .complete =>
      let history :=
        if s.history.getLast? = some s.input then s.history else s.history ++ [s.input]
      some (⟨[], 0, history, none, []⟩, some s.input)
    | _ =>
      (strBefore s.input s.cursorByte).bind fun before =>
        (s.insertChar '\n').bind fun s =>
          (insertChars (computeIndent before) s).map fun s => (s, none)

def cursorOnFirstLine : Option Bool :=
  (strBefore s.input s.cursorByte).map fun before => !before.contains '\n'

def cursorOnLastLine : Option Bool :=
  (strBehind s.input s.cursorByte).map fun behind => !behind.contains '\n'

def killToEnd : Option ReplInput :=
  (strBehind s.input s.cursorByte).bind fun behind =>
    match findNewline behind with
    | some nl => (drainStr s.input s.cursorByte (s.cursorByte + nl)).map fun input => { s with input }
    | none => (strBefore s.input s.cursorByte).map fun input => { s with input }

def killToStart : Option ReplInput :=
  s.lineStart.bind fun i =>
    (drainStr s.input i s.cursorByte).map fun input => { s with input, cursorByte := i }

def cut : ReplInput := if s.input.isEmpty then s else { s with input := [], cursorByte := 0 }

def paste (text : List Char) : Option ReplInput :=
  (insertStr s.input s.cursorByte text).map fun input =>
    { s with input, cursorByte := s.cursorByte + byteLen text }

/-- The line and the column at which the cursor is painted. -/
def caret : Option (Nat × Nat) :=
  (strBefore s.input s.cursorByte).bind fun before =>
    let line := before.count '\n'
    s.lineStart.bind fun start =>
      let colStart := if line = 0 then 0 else start
      (cutStr s.input colStart s.cursorByte).map fun p => (line, p.2.1.length)

end ReplInput

inductive ReplKey where
  /-- A character message, with its code point. -/
  | char (cp : Nat)
  | enter (shift : Bool)
  | back
  | delete
  | left (ctrl : Bool)
  | right (ctrl : Bool)
  | up
  | down
  | home
  | end_
  | toStart
  | toEnd
  | killToEnd
  | killToStart
  | cut
  /-- What the clipboard gives, if it gives a text. -/
  | paste (clipboard : Option (List Char))

/-- `char::from_u32`. -/
def charFromU32 (cp : Nat) : Option Char := if cp.isValidChar then some (Char.ofNat cp) else none

namespace ReplInput

def key (s : ReplInput) : ReplKey → Option ReplInput
  | .char cp =>
    if 0x20 ≤ cp ∧ cp ≠ 0x7F then
      match charFromU32 cp with
      | some c => s.insertChar c
      | none => some s
    else some s
  | .enter true => s.insertChar '\n'
  | .enter false => s.trySubmit.map Prod.fst
  | .back => s.deleteBack
  | .delete => s.deleteForward
  | .left true => s.moveWordLeft
  | .left false => some s.moveLeft
  | .right true => s.moveWordRight
  | .right false => some s.moveRight
  | .up => s.cursorOnFirstLine.bind fun first => if first then s.historyUp else s.moveHome
  | .down => s.cursorOnLastLine.bind fun last => if last then s.historyDown else s.moveEnd
  | .home => s.moveHome
  | .end_ => s.moveEnd
  | .toStart => some { s with cursorByte := 0 }
  | .toEnd => some { s with cursorByte := byteLen s.input }
  | .killToEnd => s.killToEnd
  | .killToStart => s.killToStart
  | .cut => some s.cut
  | .paste (some text) => s.paste text
  | .paste none => some s

end ReplInput

/-- A key in a pane, which is gone after a panic. -/
def replStep (s : Option ReplInput) (k : ReplKey) : Option ReplInput := s.bind fun s => s.key k

end FactorForth.Gui
