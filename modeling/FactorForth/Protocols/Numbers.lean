import FactorForth.Cells.Pictured
import FactorForth.Protocols.Streams

/-! Numbers and their texts: `.` and `u.` of the runtime, `n>string` and `s>n` of `streams.f`. -/

namespace FactorForth.Protocols
open FactorForth.Cells (code)
variable {α : Type}

/-- The session's base and what it has printed. -/
structure Console where
  numberBase : Int
  out : List Char
  deriving DecidableEq

abbrev ConsoleWord (α : Type) : Type := TextWord α Console

/-- Factor's words between numbers and texts; a text to be read is a sequence of character codes. -/
structure NumberWords (α : Type) where
  toBase : Val (Obj α) → Val (Obj α) → Except Fault (List Char)
  numberToString : Val (Obj α) → Except Fault (List Char)
  stringToNumber : List Int → Option (Val (Obj α))

/-- `>base` renders in the given base; the other two are its base-ten forms. -/
structure NumberWords.Lawful (F : NumberWords α) : Prop where
  renders : ∀ (n : Int) (base : Nat), 2 ≤ base → base ≤ 36 →
    F.toBase (.int n) (.int base) = .ok (Cells.numberText base n)
  ten : ∀ n : Int, F.numberToString (.int n) = F.toBase (.int n) (.int 10)
  back : ∀ (n : Int) (text : List Char), F.toBase (.int n) (.int 10) = .ok text →
    F.stringToNumber (text.map code) = some (.int n)

/-- `write`. -/
def writeOut (text : List Char) : ConsoleWord α := fun m =>
  .ok { m with world := { m.world with rest := { m.world.rest with out := m.world.rest.out ++ text } } }

/-- `number-base get`. -/
def getNumberBase : ConsoleWord α := fun m => push (.int m.world.rest.numberBase) m

/-- The codes of a sequence that `>string` makes a string of. -/
def stringCodes : List (Val (Obj α)) → Option (List Int)
  | [] => some []
  | .int ch :: xs => (stringCodes xs).map (ch :: ·)
  | _ :: _ => none

section Words
variable (F : NumberWords α)

/-- `>base ( n radix -- str )`, and what is done with the text. -/
def toBase (k : List Char → ConsoleWord α) : ConsoleWord α := bind2 fun n radix m =>
  F.toBase n radix >>= fun text => k text m

/-- `number-base get >base write " " write`. -/
def writeNumber : ConsoleWord α := seq [getNumberBase, toBase F writeOut, writeOut [' ']]

/-- `. ( n -- )`. -/
def dot : ConsoleWord α := writeNumber F

/-- `u. ( u -- )`. -/
def uDot : ConsoleWord α := writeNumber F

/-- `nf-num>str-chars ( n -- vec )`. -/
def numToStrChars : ConsoleWord α := bind1 fun n m =>
  F.numberToString n >>= fun text => alloc (.rawvec ((text.map code).map .int)) m

/-- `nf-str>num ( char-seq -- n ? )`. -/
def strToNum : ConsoleWord α := withStore Store.rawvec? fun _ xs =>
  match stringCodes xs with
  | some codes =>
    match F.stringToNumber codes with
    | some v => seq [push v, lit (-1)]
    | none => seq [lit 0, lit 0]
  | none => fun _ => .error .notNumber

/-- `n>string ( n -- s )`. -/
def nToString : ConsoleWord α := seq [numToStrChars F, makeDarray, makeString]

/-- `s>n ( s -- n ? )`. -/
def sToN : ConsoleWord α := seq [stringChars, darrayData, strToNum F]

end Words
end FactorForth.Protocols
