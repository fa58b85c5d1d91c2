import Mathlib.Algebra.Order.Ring.Int
import FactorForth.Library.Runs

/-! The grid of a text view: cells, a cursor and a pen, and the commands that the language thread sends
it. A cell outside the vector is a panic, here `none`. -/

namespace FactorForth.Gui
open FactorForth.Library

/-- A code point in its colours, each of them a `u32`. -/
structure Cell where
  codepoint : Nat
  fg : Nat
  bg : Nat
deriving DecidableEq, Repr

inductive TextCmd where
  | writeStr (s : List Nat)
  | writeChar (cp : Nat)
  | setCursor (row col : Nat)
  | clearAll
  | clearEol
  | clearEos
  | newline
  | scrollUp (n : Nat)
  | setPen (fg bg : Nat)
  | resetPen
  | setCaretVisible (v : Bool)

def defaultFg : Nat := 0xDCDCDCFF

def defaultBg : Nat := 0x12161CFF

def blankCell : Cell := ⟨0x20, defaultFg, defaultBg⟩

def tabWidth : Nat := 8

structure GridState where
  cells : List Cell
  rows : Nat
  cols : Nat
  cursorRow : Nat
  cursorCol : Nat
  penFg : Nat
  penBg : Nat
  caretVisible : Bool
deriving DecidableEq, Repr

/-- `cells[i] = x`. -/
def writeCell (cells : List Cell) (i : Nat) (x : Cell) : Option (List Cell) :=
  if i < cells.length then some (cells.set i x) else none

namespace GridState

def new (rows cols : Nat) : GridState where
  cells := List.replicate (max rows 1 * max cols 1) blankCell
  rows := max rows 1
  cols := max cols 1
  cursorRow := 0
  cursorCol := 0
  penFg := defaultFg
  penBg := defaultBg
  caretVisible := true

variable (grid : GridState)

def idx (row col : Nat) : Nat := row * grid.cols + col

/-- One cell of the old grid copied to its place in a grid of `newCols` columns. -/
def copyCell (newCols r : Nat) (next : List Cell) (c : Nat) : Option (List Cell) := do
  let x ← grid.cells[grid.idx r c]?
  writeCell next (r * newCols + c) x

def resize (rows cols : Nat) : Option GridState :=
  let newRows := max rows 1
  let newCols := max cols 1
  if newRows = grid.rows ∧ newCols = grid.cols then some grid
  else do
    let copyCols := List.range (min grid.cols newCols)
    let next ← (List.range (min grid.rows newRows)).foldlM
      (fun next r => copyCols.foldlM (grid.copyCell newCols r) next)
      (List.replicate (newRows * newCols) blankCell)
    some { grid with
      cells := next
      rows := newRows
      cols := newCols
      cursorRow := if newRows ≤ grid.cursorRow then newRows - 1 else grid.cursorRow
      cursorCol := if newCols ≤ grid.cursorCol then newCols - 1 else grid.cursorCol }

def penBlank : Cell := ⟨0x20, grid.penFg, grid.penBg⟩

def clearAll : GridState :=
  { grid with cells := grid.cells.map fun _ => grid.penBlank, cursorRow := 0, cursorCol := 0 }

/-- Blanks from column `col` to the end of a row. -/
def blankRow (row col : Nat) (cells : List Cell) : Option (List Cell) :=
  (List.range' col (grid.cols - col)).foldlM
    (fun cells c => writeCell cells (grid.idx row c) grid.penBlank) cells

def clearToEol : Option GridState := do
  let cells ← grid.blankRow grid.cursorRow grid.cursorCol grid.cells
  some { grid with cells := cells }

def clearToEos : Option GridState := do
  let cells ← grid.blankRow grid.cursorRow grid.cursorCol grid.cells
  let cells ← (List.range' (grid.cursorRow + 1) (grid.rows - (grid.cursorRow + 1))).foldlM
    (fun cells r => grid.blankRow r 0 cells) cells
  some { grid with cells := cells }

/-- `copy_within(shift..total, 0)`. -/
def copyDown (shift : Nat) (cells : List Cell) : List Cell :=
  cells.drop shift ++ cells.drop (cells.length - shift)

def scrollUp (n : Nat) : Option GridState :=
  if n = 0 then some grid
  else if grid.rows ≤ n then some grid.clearAll
  else
    let shift := n * grid.cols
    let total := grid.cells.length
    if total < shift then none
    else
      let cells := copyDown shift grid.cells
      some { grid with
        cells := cells.take (total - shift) ++ List.replicate shift grid.penBlank
        cursorRow := if n ≤ grid.cursorRow then grid.cursorRow - n else 0 }

/-- To column 0 of the next row, scrolling up if needed. -/
def newline : Option GridState :=
  let grid := { grid with cursorCol := 0 }
  if grid.cursorRow + 1 < grid.rows then some { grid with cursorRow := grid.cursorRow + 1 }
  else do
    let grid ← grid.scrollUp 1
    some { grid with cursorRow := grid.rows - 1 }

/-- Backspace, within the row. -/
def eraseLeft : Option GridState :=
  if grid.cursorCol = 0 then some grid
  else do
    let grid := { grid with cursorCol := grid.cursorCol - 1 }
    let cells ← writeCell grid.cells (grid.idx grid.cursorRow grid.cursorCol) grid.penBlank
    some { grid with cells := cells }

/-- A cell at the cursor, which moves on. -/
def putCell (cp : Nat) : Option GridState := do
  let cells ← writeCell grid.cells (grid.idx grid.cursorRow grid.cursorCol)
    ⟨cp, grid.penFg, grid.penBg⟩
  some { grid with cells := cells, cursorCol := grid.cursorCol + 1 }

/-- The column of the next tab stop, in the arithmetic of a `u32`. -/
def tabStop : Nat := (grid.cursorCol / tabWidth + 1) * tabWidth % 2 ^ 32

def putCodepoint (cp : Nat) : Option GridState :=
  if cp = 0x0A then grid.newline
  else if cp = 0x0D then some { grid with cursorCol := 0 }
  else if cp = 0x09 then some { grid with cursorCol := min grid.tabStop (grid.cols - 1) }
  else if cp = 0x08 then grid.eraseLeft
  else if cp < 0x20 then some grid
  else if grid.cols ≤ grid.cursorCol then do
    let grid ← grid.newline
    grid.putCell cp
  else grid.putCell cp

def applyCmd : TextCmd → Option GridState
  | .writeStr s => s.foldlM putCodepoint grid
  | .writeChar cp => grid.putCodepoint cp
  | .setCursor row col =>
    some { grid with cursorRow := min row (grid.rows - 1), cursorCol := min col (grid.cols - 1) }
  | .clearAll => some grid.clearAll
  | .clearEol => grid.clearToEol
  | .clearEos => grid.clearToEos
  | .newline => grid.newline
  | .scrollUp n => grid.scrollUp n
  | .setPen fg bg => some { grid with penFg := fg, penBg := bg }
  | .resetPen => some { grid with penFg := defaultFg, penBg := defaultBg }
  | .setCaretVisible v => some { grid with caretVisible := v }

/-- What happens to a grid: a command of the language thread, or a new size of its window. -/
inductive Event where
  | cmd (c : TextCmd)
  | resize (rows cols : Nat)

def step : Event → Option GridState
  | .cmd c => grid.applyCmd c
  | .resize rows cols => grid.resize rows cols

end GridState
end FactorForth.Gui
