import FactorForth.Compiler.Lex

/-! The parser: recursive descent over the tokens. Each parser returns what it read together with the
tokens behind it, which are fewer. -/

namespace FactorForth.Compiler
open Lex

inductive ParseError where
  | expectedDefName (at_ : Span)
  | expectedDefiningName (keyword : String) (at_ : Span)
  | constantWithoutValue (keyword : String) (at_ : Span)
  | nonLiteralConstantValue (keyword : String) (at_ : Span)
  | nestedColon (outer inner : Span)
  | straySemicolon (at_ : Span)
  | unterminatedDefinition (openedAt : Span)
  | malformedStackEffect (at_ : Span) (reason : String)
  | strayControlWord (word : String) (at_ : Span)
  | unterminatedControl (opener : String) (openedAt : Span) (expected : List String)
  | letSyntax (at_ : Span) (reason : String)
deriving DecidableEq, Repr

def ParseError.display : ParseError → String
  | .expectedDefName at_ => "expected definition name after `:` at " ++ at_.display
  | .expectedDefiningName keyword at_ =>
    "expected name after `" ++ keyword ++ "` at " ++ at_.display
  | .constantWithoutValue keyword at_ =>
    "`" ++ keyword ++ "` at " ++ at_.display ++
      " needs a value before it (e.g. `64 CONSTANT max`)"
  | .nonLiteralConstantValue keyword at_ =>
    "`" ++ keyword ++ "` at " ++ at_.display ++
      ": only literal values are supported in this milestone"
  | .nestedColon _ inner =>
    "nested `:` at " ++ inner.display ++ ": ANS forbids defining a word inside another"
  | .straySemicolon at_ => "stray `;` at " ++ at_.display ++ ": no `:` to close"
  | .unterminatedDefinition openedAt =>
    "unterminated `:` definition opened at " ++ openedAt.display
  | .malformedStackEffect at_ reason =>
    "malformed stack effect at " ++ at_.display ++ ": " ++ reason
  | .strayControlWord word at_ =>
    "stray `" ++ word ++ "` at " ++ at_.display ++ ": no matching opener"
  | .unterminatedControl opener openedAt expected =>
    "unterminated `" ++ opener ++ "` opened at " ++ openedAt.display ++ "; expected one of: " ++
      ", ".intercalate (expected.map fun e => "`" ++ e ++ "`")
  | .letSyntax at_ reason => "LET syntax error at " ++ at_.display ++ ": " ++ reason

/-- A result and the tokens behind it. -/
structure Parsed (α : Type) (n : Nat) where
  value : α
  rest : List Token
  shorter : rest.length < n

namespace Parsed
variable {α β : Type} {m n : Nat}

def weaken (p : Parsed α m) (h : m ≤ n) : Parsed α n := ⟨p.value, p.rest, Nat.lt_of_lt_of_le p.shorter h⟩

def map (f : α → β) (p : Parsed α n) : Parsed β n := ⟨f p.value, p.rest, p.shorter⟩

end Parsed

structure Code where
  tok : Lex.Tok
  span : Span

/-- The next token behind the comments. -/
def nextCode : (toks : List Token) → Option (Parsed Code toks.length)
  | [] => none
  | ⟨.code t, span⟩ :: rest => some ⟨⟨t, span⟩, rest, Nat.lt_succ_self _⟩
  | ⟨.lineComment _, _⟩ :: rest => (nextCode rest).map fun p => p.weaken (Nat.le_succ _)
  | ⟨.blockComment _, _⟩ :: rest => (nextCode rest).map fun p => p.weaken (Nat.le_succ _)

structure Name where
  text : String
  span : Span

/-- The word that a defining or parsing word takes as its name; a comment does not do. -/
def nameAfter (error : ParseError) : (toks : List Token) → Except ParseError (Parsed Name toks.length)
  | ⟨.code (.word w), span⟩ :: rest => .ok ⟨⟨w, span⟩, rest, Nat.lt_succ_self _⟩
  | _ => .error error

def definingName (keyword : String) (kwSpan : Span) (toks : List Token) :
    Except ParseError (Parsed Name toks.length) :=
  nameAfter (.expectedDefiningName keyword kwSpan) toks

/-! Stack effects. -/

def isAsciiWhitespace (c : Char) : Bool :=
  c = ' ' || c = '\t' || c = '\n' || c = '\x0c' || c = '\r'

/-- `char::is_whitespace`. -/
def isWhitespace (c : Char) : Bool :=
  let n := c.toNat
  (9 ≤ n && n ≤ 13) || n = 32 || n = 0x85 || n = 0xA0 || n = 0x1680 ||
    (0x2000 ≤ n && n ≤ 0x200A) || n = 0x2028 || n = 0x2029 || n = 0x202F || n = 0x205F || n = 0x3000

def splitWhitespace (cs : List Char) : List String :=
  ((cs.splitOnP isWhitespace).filter fun w => !w.isEmpty).map String.ofList

/-- The text before and behind the first free-standing `--`. -/
def splitArrow : (leftOk : Bool) → List Char → Option (List Char × List Char)
  | _, [] => none
  | leftOk, c :: cs =>
    let later := (splitArrow (isAsciiWhitespace c) cs).map fun r => (c :: r.1, r.2)
    match c, cs with
    | '-', '-' :: right =>
      if leftOk && right.head?.all isAsciiWhitespace then some ([], right) else later
    | _, _ => later

def parseStackEffect (body : String) (span : Span) : Option StackEffect :=
  (splitArrow true body.toList).map fun r => ⟨splitWhitespace r.1, splitWhitespace r.2, span⟩

/-! Expressions. -/

/-- The names of a `{: … :}` block, whose opening token is consumed. -/
def parseLocalsBlock (openSpan : Span) (toks : List Token) :
    Except ParseError (Parsed (List LocalDecl) toks.length) :=
  match nextCode toks with
  | some ⟨⟨.word w, span⟩, rest, h⟩ =>
    if w = ":\x7d" then .ok ⟨[], rest, h⟩
    else if w = ";" || w = ":" || w = "\x7b:" then .error (.unterminatedDefinition openSpan)
    else (parseLocalsBlock openSpan rest).map fun p =>
      (p.weaken (Nat.le_of_lt h)).map fun names => ⟨w, span⟩ :: names
  | _ => .error (.unterminatedDefinition openSpan)
termination_by toks.length

/-- A parsing word and the name it takes. -/
def parseNamed (keyword : String) (span : Span) (mk : String → Span → Expr) (rest : List Token) :
    Except ParseError (Parsed Expr rest.length) :=
  (definingName keyword span rest).map fun p =>
    p.map fun name => mk name.text ⟨span.start, name.span.stop⟩

def strayWords : List String :=
  ["else", "then", "until", "while", "repeat", "again", "loop", "+loop", "of", "endof", "default",
    "other", "endcase"]

/-- A block and the terminator that closed it. -/
structure Block where
  body : List Expr
  word : String
  span : Span

structure CaseParts where
  arms : List (CaseArm Expr)
  default : Option (List Expr)
  stop : Span

section Expressions
variable (parseLet : String → Except String LetLang.LetForm)

mutual
/-- One expression from its first token. -/
def exprOne (t : Lex.Tok) (span : Span) (rest : List Token) :
    Except ParseError (Parsed Expr (rest.length + 1)) :=
  let leaf := fun e : Expr => Except.ok ⟨e, rest, Nat.lt_succ_self _⟩
  match t with
  | .int value _ _ => leaf (.lit (.int value span))
  | .float value _ => leaf (.lit (.float value span))
  | .str value kind => leaf (.lit (.str value kind span))
  | .letBlock text =>
    match parseLet text with
    | .ok form => leaf (.letForm form span)
    | .error message => .error (.letSyntax span message)
  | .word w =>
    let inner := fun r : Except ParseError (Parsed Expr rest.length) =>
      r.map fun p => p.weaken (Nat.le_succ _)
    match lower w with
    | "if" => inner (parseIf span rest)
    | "begin" => inner (parseBegin span rest)
    | "do" => inner (parseDo span false rest)
    | "?do" => inner (parseDo span true rest)
    | "case" => inner ((parseCase span rest).map fun p => p.map fun c =>
        .caseOf c.arms c.default ⟨span.start, c.stop.stop⟩)
    | "'" => inner (parseNamed "'" span .tick rest)
    | "to" => inner (parseNamed "TO" span .toValue rest)
    | "see" => inner (parseNamed "SEE" span .see rest)
    | "\x7b:" => inner ((parseLocalsBlock span rest).map fun p => p.map fun names =>
        .locals names span)
    | lc => if strayWords.contains lc then .error (.strayControlWord lc span)
      else leaf (.wordRef w span)
termination_by 3 * rest.length + 2

def parseIf (ifSpan : Span) (toks : List Token) : Except ParseError (Parsed Expr toks.length) := do
  let b ← parseBlockUntil "if" ifSpan ["else", "then"] toks
  if b.value.word = "else" then
    let e ← parseBlockUntil "else" b.value.span ["then"] b.rest
    return ⟨.ifElse b.value.body (some e.value.body) ⟨ifSpan.start, e.value.span.stop⟩, e.rest,
      Nat.lt_trans e.shorter b.shorter⟩
  else
    return ⟨.ifElse b.value.body none ⟨ifSpan.start, b.value.span.stop⟩, b.rest, b.shorter⟩
termination_by 3 * toks.length + 1
decreasing_by all_goals (try have hb := b.shorter); omega

def parseBegin (beginSpan : Span) (toks : List Token) :
    Except ParseError (Parsed Expr toks.length) := do
  let b ← parseBlockUntil "begin" beginSpan ["until", "again", "while"] toks
  let span : Span := ⟨beginSpan.start, b.value.span.stop⟩
  match b.value.word with
  | "until" => return ⟨.beginUntil b.value.body span, b.rest, b.shorter⟩
  | "again" => return ⟨.beginAgain b.value.body span, b.rest, b.shorter⟩
  | _ =>
    let r ← parseBlockUntil "while" b.value.span ["repeat"] b.rest
    return ⟨.beginWhileRepeat b.value.body r.value.body ⟨beginSpan.start, r.value.span.stop⟩,
      r.rest, Nat.lt_trans r.shorter b.shorter⟩
termination_by 3 * toks.length + 1
decreasing_by all_goals (try have hb := b.shorter); omega

def parseDo (doSpan : Span) (isQdo : Bool) (toks : List Token) :
    Except ParseError (Parsed Expr toks.length) := do
  let b ← parseBlockUntil (if isQdo then "?do" else "do") doSpan ["loop", "+loop"] toks
  let loopKind := if b.value.word = "loop" then LoopKind.plus1 else LoopKind.plusN
  return ⟨.doLoop isQdo b.value.body loopKind ⟨doSpan.start, b.value.span.stop⟩, b.rest, b.shorter⟩
termination_by 3 * toks.length + 1

/-- One round up to OF, DEFAULT, OTHER or ENDCASE, and the rounds behind it. Code in front of an
explicit default is dropped. -/
def parseCase (caseSpan : Span) (toks : List Token) :
    Except ParseError (Parsed CaseParts toks.length) := do
  let b ← parseBlockUntil "case" caseSpan ["of", "default", "other", "endcase"] toks
  match b.value.word with
  | "of" =>
    let armStart := (b.value.body.head?.map Expr.span).getD b.value.span
    let a ← parseBlockUntil "of" b.value.span ["endof"] b.rest
    let arm : CaseArm Expr := ⟨b.value.body, a.value.body, ⟨armStart.start, a.value.span.stop⟩⟩
    let c ← parseCase caseSpan a.rest
    return ⟨⟨arm :: c.value.arms, c.value.default, c.value.stop⟩, c.rest,
      Nat.lt_trans c.shorter (Nat.lt_trans a.shorter b.shorter)⟩
  | "endcase" =>
    return ⟨⟨[], if b.value.body.isEmpty then none else some b.value.body, b.value.span⟩, b.rest,
      b.shorter⟩
  | word =>
    let d ← parseBlockUntil word b.value.span ["endcase"] b.rest
    return ⟨⟨[], some d.value.body, d.value.span⟩, d.rest, Nat.lt_trans d.shorter b.shorter⟩
termination_by 3 * toks.length + 1
decreasing_by all_goals (try have hb := b.shorter); (try have ha := a.shorter); omega

/-- Expressions up to one of the terminators at this level. -/
def parseBlockUntil (opener : String) (openedAt : Span) (terminators : List String)
    (toks : List Token) : Except ParseError (Parsed Block toks.length) :=
  let unterminated := Except.error (.unterminatedControl opener openedAt terminators)
  match nextCode toks with
  | none => unterminated
  | some ⟨⟨t, span⟩, rest, h⟩ =>
    let body := fun _ : Unit => do
      let e ← exprOne t span rest
      have he : e.rest.length < toks.length := Nat.lt_of_lt_of_le e.shorter h
      let b ← parseBlockUntil opener openedAt terminators e.rest
      return (⟨⟨e.value :: b.value.body, b.value.word, b.value.span⟩, b.rest,
        Nat.lt_trans b.shorter he⟩ : Parsed Block toks.length)
    match t with
    | .word w =>
      if terminators.contains (lower w) then .ok ⟨⟨[], lower w, span⟩, rest, h⟩
      else if w = ";" then unterminated
      else body ()
    | _ => body ()
termination_by 3 * toks.length
decreasing_by all_goals omega
end

end Expressions
end FactorForth.Compiler
