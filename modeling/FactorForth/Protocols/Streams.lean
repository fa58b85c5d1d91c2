import FactorForth.Protocols.Sort

/-! Text and streams as `streams.f` writes them: strings, the reader over one, splitting and joining, and
the utilities over strings. -/

namespace FactorForth.Protocols
variable {α ω : Type}

/-- What the program has beside the collections: the end marker, readers (a reader is the store of its
slots), `nf-addr` objects and the rest. -/
inductive Obj (α : Type) where
  | eofMarker
  | reader (slots : Nat)
  | nfAddr (ba : List UInt8) (off : Nat)
  | other (o : α)
  deriving DecidableEq

/-- The return stack and the rest of the program's state. -/
structure Returns (α ω : Type) where
  rs : List (Val (Obj α))
  rest : ω

abbrev TextProgram (α ω : Type) : Type := Program (Obj α) (Returns α ω)

abbrev TextWord (α ω : Type) : Type := Word (Obj α) (Returns α ω)

/-! The return stack. -/

/-- `>r ( x -- )`. -/
def toR : TextWord α ω := bind1 fun x m => .ok { m with world := { m.world with rs := x :: m.world.rs } }

/-- `r> ( -- x )`. -/
def fromR : TextWord α ω := fun m =>
  match m.world.rs with
  | x :: rs => .ok { m with stack := x :: m.stack, world := { m.world with rs := rs } }
  | [] => .error .underflow

/-- `r@ ( -- x )`. -/
def fetchR : TextWord α ω := fun m =>
  match m.world.rs with
  | x :: _ => .ok { m with stack := x :: m.stack }
  | [] => .error .underflow

section Words
variable (P : TextProgram α ω) (fuel : Nat)

/-- `= ( a b -- ? )`. -/
def equal : TextWord α ω := bind2 fun a b => lit (boolToFlag (P.same a b))

def lessThan : TextWord α ω := int2 fun a b => boolToFlag (decide (a < b))
def max_ : TextWord α ω := int2 fun a b => max a b

/-- `rot ( a b c -- b c a )`. -/
def rot : TextWord α ω := shuffle fun
  | z :: y :: x :: st => some (x :: z :: y :: st)
  | _ => none

/-! Strings. -/

def newString : TextWord α ω := seq [newDarray, makeString]

def stringPush : TextWord α ω := seq [stringChars, dPush]

def appendInto : TextWord α ω := seq [
  over_, size, lit 0, qdoLoop [
    over_, index, swap, elementAt,
    over_, stringPush],
  twoDrop]

def stringAppend : TextWord α ω := seq [
  newString, toR,
  swap, fetchR, appendInto,
  fetchR, appendInto,
  fromR]

/-! Readers. -/

/-- `<string-reader> ( buf pos -- s )`. -/
def makeReader : TextWord α ω := bind2 fun buf pos => seq [
  alloc (.cells [buf, pos]), bind1 fun
    | .addr a => push (.other (.reader a))
    | _ => fun _ => .error .noMethod]

/-- The slots of a reader, as the store that they are. -/
def readerSlots (k : Nat → TextWord α ω) : TextWord α ω := bind1 fun
  | .other (.reader a) => k a
  | _ => fun _ => .error .noMethod

def readerBuf : TextWord α ω := readerSlots fun a => seq [push (.addr a), lit 0, cellsAt]

def readerPos : TextWord α ω := readerSlots fun a => seq [push (.addr a), lit 1, cellsAt]

/-- `string-reader.pos! ( pos s -- )`. -/
def setReaderPos : TextWord α ω := readerSlots fun a => seq [push (.addr a), lit 1, cellsSet]

/-- `read-char ( s -- ch|eof )` of a string reader. -/
def readChar : TextWord α ω := seq [
  dup, readerPos, over_, readerBuf, size, lessThan, zeroEqual P, ifElse P
    [drop, push (.other .eofMarker)]
    [dup, readerPos, over_, readerBuf, elementAt,
      swap, dup, readerPos, onePlus, over_, setReaderPos,
      drop]]

def eof? : TextWord α ω := seq [push (.other .eofMarker), equals? P]

/-- `<reader> ( buf -- s )`. -/
def newReader : TextWord α ω := seq [lit 0, makeReader]

def readerDone? : TextWord α ω := seq [
  dup, readerPos, swap, readerBuf, size, lessThan, zeroEqual P]

def stringToReader : TextWord α ω := seq [stringChars, newReader]

def readLine : TextWord α ω := seq [
  newString,
  untilLoop P [
    over_, readChar P,
    dup, eof? P, ifElse P
      [drop, lit (-1)]
      [dup, lit 10, equal P, ifElse P
        [drop, lit (-1)]
        [over_, stringPush, lit 0]]] fuel,
  nip]

/-! Splitting and joining. -/

def split : TextWord α ω := bind2 fun s delim => seq [
  push s, stringToReader, toR,
  newDarray, newString, over_, dPush,
  untilLoop P [
    fetchR, readChar P,
    dup, eof? P, ifElse P
      [drop, lit (-1)]
      [dup, push delim, equal P, ifElse P
        [drop, newString, over_, dPush, lit 0]
        [over_, dup, size, oneMinus, swap, elementAt, stringPush, lit 0]]] fuel,
  fromR, drop]

def join : TextWord α ω := bind2 fun coll delim => seq [
  newString,
  push coll, size, lit 0, qdoLoop [
    index, lit 0, greaterThan, ifElse P [push delim, over_, stringPush] [],
    push coll, index, swap, elementAt, over_, appendInto]]

end Words
end FactorForth.Protocols
