import FactorForth.Compiler.Escapes
import FactorForth.Protocols.TextWords

/-! Printing, from a literal of the source to the bytes in the session's sink. -/

namespace FactorForth.Protocols
open FactorForth.Compiler (literalText readBack)
variable {α : Type}

/-- A word of a program whose other state is the sink, in Test and in Terminal mode. -/
abbrev SinkWord (α : Type) : Type := TextWord α (List UInt8)

/-- `nf_rt_write_char`; `ch as u8` is the low byte. -/
def writeChar (ch : Int) (sink : List UInt8) : List UInt8 := sink ++ [UInt8.ofNat (ch % 256).toNat]

/-- `stream-write` of the host's stream, one code point after the other. -/
def streamWrite (text : List Char) (sink : List UInt8) : List UInt8 :=
  text.foldl (fun sink c => writeChar c.toNat sink) sink

def writeText (text : List Char) : SinkWord α := fun m =>
  .ok { m with world := { m.world with rest := streamWrite text m.world.rest } }

/-- `print-string ( factor-str -- )`. -/
def printString (text : List Char) : SinkWord α := writeText text

/-- `emit ( ch -- )`. -/
def emit : SinkWord α := bind1 fun
  | .int ch => fun m => .ok { m with world := { m.world with rest := writeChar ch m.world.rest } }
  | _ => fun _ => .error .noMethod

/-- `type ( c-addr u -- )`; `decode` is Factor's `utf8 decode`. -/
def typeText (decode : List UInt8 → List Char) : SinkWord α := bind2 fun
  | .other (.nfAddr ba off), .int u => fun m =>
    if 0 ≤ u ∧ off + u ≤ ba.length then writeText (decode ((ba.drop off).take u.toNat)) m
    else .error .bounds
  | _, _ => fun _ => .error .noMethod

/-- `show ( s -- )` of a string. -/
def showString : SinkWord α := seq [
  stringChars, dup, size, lit 0, qdoLoop [
    dup, index, swap, elementAt, emit],
  drop]

/-! Programs that print. -/

inductive Printing where
  /-- `." text"` -/
  | dotQuote (text : String)
  /-- `S" text" TYPE` -/
  | typed (text : String)
  /-- `EMIT` of the code of a character. -/
  | emit (c : Char)
  /-- `S" text" >string show` -/
  | shown (text : String)

/-- The literal that stands in the program that Factor gets. -/
def Printing.literal : Printing → String
  | .dotQuote text => literalText text .dotQuote
  | .typed text | .shown text => literalText text .sQuote
  | .emit _ => ""

/-- What Factor reads of a literal. -/
def factorReads (literal : String) : List Char := ((readBack literal.toList).map (·.1)).getD []

section Runs
variable (stray : List UInt8 → Nat → UInt8) (decode : List UInt8 → List Char)

def Printing.words : Printing → List (SinkWord α)
  | .dotQuote text => [printString (factorReads (literalText text .dotQuote))]
  | .typed text => [sQuoteRuntime (factorReads (literalText text .sQuote)), typeText decode]
  | .emit c => [lit c.toNat, Protocols.emit]
  | .shown text => [sQuoteRuntime (factorReads (literalText text .sQuote)), toText stray, showString]

/-- `CString::new`, which refuses a NUL; `nf_rt_next_command` then ends the listener. -/
def handOver (text : String) : Option String := if '\x00' ∈ text.toList then none else some text

/-- The machine when the part `done` of a program has run. -/
def printed (program done : List Printing) (m : Machine (Obj α) (Returns α (List UInt8))) :
    Except Fault (Machine (Obj α) (Returns α (List UInt8))) :=
  match handOver (String.join (program.map Printing.literal)) with
  | some _ => seq (done.flatMap (Printing.words stray decode)) m
  | none => .error .missing

end Runs
end FactorForth.Protocols
