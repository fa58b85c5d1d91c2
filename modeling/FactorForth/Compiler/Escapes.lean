import FactorForth.Compiler.Emit
import FactorForth.Library.Quoting

/-! The text of the literals: string literals, `SEE` reports and the errors of a LET form, each with an
escaper of its own, and the reader that they are written for. -/

namespace FactorForth.Compiler
open FactorForth.Library

def factorEscapeChar : Char → List Char
  | '\\' => ['\\', '\\']
  | '"' => ['\\', '"']
  | '\n' => ['\\', 'n']
  | '\r' => ['\\', 'r']
  | '\t' => ['\\', 't']
  | c => [c]

def factorEscape (s : String) : String := String.ofList (s.toList.flatMap factorEscapeChar)

/-- Rust's `str::replace` of a character. -/
def replaceChar (c : Char) (new : String) (s : String) : String :=
  String.ofList (s.toList.flatMap fun d => if d = c then new.toList else [d])

/-- What prints a literal. -/
def printSuffix : String := " forth.runtime:print-string"

/-- What follows the literal. -/
def literalSuffix : StringKind → String
  | .dotQuote => printSuffix
  | .sQuote => " forth.runtime:s-quote-runtime"
  | .sDollarQuote => ""
  | .cQuote => ""

def literalText (value : String) (kind : StringKind) : String :=
  "\"" ++ factorEscape value ++ "\"" ++ literalSuffix kind

def seeEscape (report : String) : String :=
  replaceChar '\n' "\\n" (replaceChar '"' "\\\"" (replaceChar '\\' "\\\\" report))

def seeText (docs : Dict String WordDoc) (name : String) : String :=
  "\"" ++ seeEscape (seeReport docs name) ++ "\"" ++ printSuffix

def letErrorEscape (e : String) : String :=
  replaceChar '"' "\\\"" (replaceChar '\\' "\\\\" e)

def letErrorHead : String := "LET codegen error: "

def letErrorText (e : String) : String :=
  "\"" ++ letErrorHead ++ letErrorEscape e ++ "\"" ++ printSuffix

/-! The reader. -/

/-- The characters that end a line of the source for Factor. -/
def lineBreaks : List Char :=
  ['\n', '\r', '\x0b', '\x0c', '\x1c', '\x1d', '\x1e', '\x85', '\u2028', '\u2029']

def isLineBreak (c : Char) : Bool := c ∈ lineBreaks

def escapeMeaning : Char → Option Char
  | '\\' => some '\\'
  | '"' => some '"'
  | 'n' => some '\n'
  | 'r' => some '\r'
  | 't' => some '\t'
  | _ => none

/-- String literals of Factor. -/
def factorQuoting : Quoting Char where
  quote := '"'
  slash := '\\'
  newline := '\n'
  ret := '\r'
  meaning := escapeMeaning
  isBreak := isLineBreak
  slash_ne := by decide
  ret_ne := by decide
  ret_break := by decide

/-- The literal at the start of a text, and the text behind it. -/
def readBack : List Char → Option (List Char × List Char)
  | '"' :: body => factorQuoting.read body
  | _ => none

end FactorForth.Compiler
