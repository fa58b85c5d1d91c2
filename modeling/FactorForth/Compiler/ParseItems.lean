import FactorForth.Compiler.Parse

/-! The parser of a whole source: the defining words, and the run of top-level expressions that each of
them finds pending. -/

namespace FactorForth.Compiler
open Lex

section Lengths
variable {toks toks' rest rest' : List Token}

theorem length_lt_succ (toks : List Token) : toks.length < toks.length + 1 := Nat.lt_succ_self _

theorem length_le_self (toks : List Token) : toks.length ≤ toks.length := Nat.le_refl _

theorem length_le_of_lt (h : rest.length < toks.length) : rest.length ≤ toks.length := Nat.le_of_lt h

theorem length_le_succ_of_lt (h : rest.length < toks.length) : rest.length ≤ toks.length + 1 := by omega

theorem length_lt_succ_of_lt (h : rest.length < toks.length) (h' : rest'.length < rest.length) :
    rest'.length < toks.length + 1 := by omega

theorem length_lt_of_le (h : rest.length < toks.length) (hle : toks'.length ≤ rest.length)
    (h' : rest'.length < toks'.length) : rest'.length < toks.length := by omega

end Lengths

section Items
variable (parseLet : String → Except String LetLang.LetForm)

/-- A body up to its `;`. Only a colon definition forbids a further `:`. -/
def parseBody (opened : Span) (forbidColon : Bool) (toks : List Token) :
    Except ParseError (Parsed (List Expr × Span) toks.length) :=
  match nextCode toks with
  | none => .error (.unterminatedDefinition opened)
  | some ⟨⟨t, span⟩, rest, h⟩ =>
    let more := fun _ : Unit => do
      let e ← exprOne parseLet t span rest
      have he : e.rest.length < toks.length := Nat.lt_of_lt_of_le e.shorter h
      let b ← parseBody opened forbidColon e.rest
      return (⟨(e.value :: b.value.1, b.value.2), b.rest, Nat.lt_trans b.shorter he⟩ :
        Parsed (List Expr × Span) toks.length)
    match t with
    | .word w =>
      if w = ";" then .ok ⟨([], span), rest, h⟩
      else if w = ":" ∧ forbidColon then .error (.nestedColon opened span)
      else more ()
    | _ => more ()
termination_by toks.length

/-- The effect comment that may stand right behind a name. -/
def effectAfter (toks : List Token) : Option StackEffect × Parsed Unit (toks.length + 1) :=
  match toks with
  | ⟨.blockComment body, span⟩ :: rest =>
    match parseStackEffect body span with
    | some effect => (some effect, ⟨(), rest, by simp only [List.length_cons]; omega⟩)
    | none => (none, ⟨(), ⟨.blockComment body, span⟩ :: rest, Nat.lt_succ_self _⟩)
  | toks => (none, ⟨(), toks, length_lt_succ toks⟩)

/-- The `{: … :}` block that may stand in front of a body. -/
def headLocals (toks : List Token) :
    Except ParseError (Parsed (List LocalDecl) (toks.length + 1)) :=
  match nextCode toks with
  | some ⟨⟨.word w, span⟩, rest, h⟩ =>
    if w = "\x7b:" then (parseLocalsBlock span rest).map fun p => p.weaken (length_le_succ_of_lt h)
    else .ok ⟨[], toks, length_lt_succ toks⟩
  | _ => .ok ⟨[], toks, length_lt_succ toks⟩

/-- Where a body has both CREATE and, behind it, DOES>: the code between them and the code after. -/
def templateParts (body : List Expr) : Option (List Expr × List Expr) :=
  let isWord := fun (w : String) (e : Expr) => match e with
    | .wordRef n _ => eqIgnoreAsciiCase n w
    | _ => false
  match body.findIdx? (isWord "create"), body.findIdx? (isWord "does>") with
  | some ci, some di =>
    if ci < di then some ((body.drop (ci + 1)).take (di - ci - 1), body.drop (di + 1)) else none
  | _, _ => none

def colonItem (d : Definition) : Item :=
  match templateParts d.body with
  | some (constructor, doesBody) =>
    .template ⟨d.name, d.nameSpan, d.effect, constructor, doesBody, d.span⟩
  | none => .definition d

/-- From the token behind `:`. -/
def colonDefinition (colonSpan : Span) (toks : List Token) :
    Except ParseError (Parsed Item toks.length) := do
  let name ← nameAfter (.expectedDefName colonSpan) toks
  let effect := effectAfter name.rest
  let locals ← headLocals effect.2.rest
  let body ← parseBody parseLet colonSpan true locals.rest
  return ⟨colonItem ⟨name.value.text, name.value.span, effect.1, locals.value, body.value.1,
    ⟨colonSpan.start, body.value.2.stop⟩⟩, body.rest, by
      have h1 := name.shorter
      have h2 := effect.2.shorter
      have h3 := locals.shorter
      have h4 := body.shorter
      omega⟩

/-- The slots up to the `;`. -/
def parseSlots (kwSpan : Span) (toks : List Token) :
    Except ParseError (Parsed (List SlotDef × Span) toks.length) :=
  match nextCode toks with
  | none => .error (.unterminatedDefinition kwSpan)
  | some ⟨⟨.word w, span⟩, rest, h⟩ =>
    if w = ";" then .ok ⟨([], span), rest, h⟩
    else if eqIgnoreAsciiCase w "slot:" then
      match nextCode rest with
      | some ⟨⟨.word slot, slotSpan⟩, rest', h'⟩ =>
        (parseSlots kwSpan rest').map fun p =>
          (p.weaken (Nat.le_of_lt (Nat.lt_trans h' h))).map fun r =>
            (⟨slot, slotSpan⟩ :: r.1, r.2)
      | _ => .error (.expectedDefiningName "SLOT:" kwSpan)
    else .error (.strayControlWord w span)
  | some ⟨⟨_, span⟩, _, _⟩ => .error (.strayControlWord "<non-word>" span)
termination_by toks.length

/-- The `EXTENDS parent` that may follow a class name. -/
def extendsClause (kwSpan : Span) (toks : List Token) :
    Except ParseError (Parsed (Option String) (toks.length + 1)) :=
  match nextCode toks with
  | some ⟨⟨.word w, _⟩, rest, h⟩ =>
    if eqIgnoreAsciiCase w "extends" then
      match nextCode rest with
      | some ⟨⟨.word parent, _⟩, rest', h'⟩ => .ok ⟨some parent, rest', length_lt_succ_of_lt h h'⟩
      | _ => .error (.expectedDefiningName "EXTENDS" kwSpan)
    else .ok ⟨none, toks, length_lt_succ toks⟩
  | _ => .ok ⟨none, toks, length_lt_succ toks⟩

def classDefinition (kwSpan : Span) (toks : List Token) :
    Except ParseError (Parsed Item toks.length) := do
  let name ← definingName "CLASS:" kwSpan toks
  let parent ← extendsClause kwSpan name.rest
  let slots ← parseSlots kwSpan parent.rest
  return ⟨.class_ ⟨name.value.text, name.value.span, parent.value, slots.value.1,
    ⟨kwSpan.start, slots.value.2.stop⟩⟩, slots.rest, by
      have h1 := name.shorter
      have h2 := parent.shorter
      have h3 := slots.shorter
      omega⟩

/-- The stack effect that a generic or a method has to have. -/
def requiredEffect (keyword : String) (nameSpan : Span) :
    (toks : List Token) → Except ParseError (Parsed StackEffect toks.length)
  | ⟨.blockComment body, span⟩ :: rest =>
    match parseStackEffect body span with
    | some effect => .ok ⟨effect, rest, length_lt_succ rest⟩
    | none => .error (.malformedStackEffect span (keyword ++ " stack effect must contain `--`"))
  | _ => .error (.malformedStackEffect nameSpan (keyword ++ " requires a stack effect annotation"))

def genericDeclaration (kwSpan : Span) (toks : List Token) :
    Except ParseError (Parsed Item toks.length) := do
  let name ← definingName "GENERIC:" kwSpan toks
  let effect ← requiredEffect "GENERIC:" name.value.span name.rest
  return ⟨.generic ⟨name.value.text, name.value.span, effect.value,
    ⟨kwSpan.start, effect.value.span.stop⟩⟩, effect.rest, Nat.lt_trans effect.shorter name.shorter⟩

/-- `name:class`, both parts non-empty. -/
def splitSpecializer (input : String) : Option (String × String) :=
  let cs := input.toList
  let pname := cs.takeWhile (· != ':')
  let cls := (cs.dropWhile (· != ':')).tail
  if pname.isEmpty || cls.isEmpty then none else some (String.ofList pname, String.ofList cls)

def specializers (span : Span) (inputs : List String) : List MethodSpecializer :=
  inputs.zipIdx.filterMap fun p =>
    (splitSpecializer p.1).map fun s => ⟨p.2, s.1, s.2, span⟩

def cleanInputs (inputs : List String) : List String :=
  inputs.map fun i => ((splitSpecializer i).map Prod.fst).getD i

def methodDefinition (kwSpan : Span) (keyword : String) (kind : MethodKind) (toks : List Token) :
    Except ParseError (Parsed Item toks.length) := do
  let name ← definingName keyword kwSpan toks
  let raw ← requiredEffect "METHOD:" name.value.span name.rest
  let locals ← headLocals raw.rest
  let body ← parseBody parseLet kwSpan false locals.rest
  return ⟨.method ⟨name.value.text, name.value.span, specializers raw.value.span raw.value.inputs,
    ⟨cleanInputs raw.value.inputs, raw.value.outputs, raw.value.span⟩, locals.value, body.value.1,
    ⟨kwSpan.start, body.value.2.stop⟩, kind⟩, body.rest, by
      have h1 := name.shorter
      have h2 := raw.shorter
      have h3 := locals.shorter
      have h4 := body.shorter
      omega⟩

/-- `[N [CELLS|CHARS] ALLOT]` with its size and end. -/
def allotRun (toks : List Token) : Option (Parsed (Nat × Span) toks.length) :=
  match nextCode toks with
  | some ⟨⟨.int value _ _, _⟩, rest, h⟩ =>
    if value < 0 then none
    else
      let allot := fun (unit : Nat) (toks' : List Token) (hle : toks'.length ≤ rest.length) =>
        match nextCode toks' with
        | some ⟨⟨.word w, span⟩, rest', h'⟩ =>
          if eqIgnoreAsciiCase w "allot" then
            some (⟨(saturatingMul (asU32 value) unit, span), rest', length_lt_of_le h hle h'⟩ :
              Parsed (Nat × Span) toks.length)
          else none
        | _ => none
      match nextCode rest with
      | some ⟨⟨.word w, _⟩, rest', h'⟩ =>
        if eqIgnoreAsciiCase w "cells" then allot 8 rest' (length_le_of_lt h')
        else if eqIgnoreAsciiCase w "chars" then allot 1 rest' (length_le_of_lt h')
        else allot 1 rest (length_le_self rest)
      | _ => none
  | _ => none

def allotRuns (allotted : Nat) (stop : Pos) (toks : List Token) :
    Parsed (Nat × Pos) (toks.length + 1) :=
  match allotRun toks with
  | none => ⟨(allotted, stop), toks, Nat.lt_succ_self _⟩
  | some ⟨(bytes, span), rest, h⟩ =>
    (allotRuns (saturatingAdd allotted bytes) span.stop rest).weaken (by omega)
termination_by toks.length

def variableDefinition (kwSpan : Span) (toks : List Token) :
    Except ParseError (Parsed Item toks.length) :=
  (definingName "VARIABLE" kwSpan toks).map fun p => p.map fun name =>
    .variable ⟨name.text, name.span, ⟨kwSpan.start, name.span.stop⟩⟩

def needsDirective (kwSpan : Span) (toks : List Token) :
    Except ParseError (Parsed Item toks.length) :=
  (definingName "NEEDS" kwSpan toks).map fun p => p.map fun path =>
    .needs path.text ⟨kwSpan.start, path.span.stop⟩

def createDefinition (kwSpan : Span) (toks : List Token) :
    Except ParseError (Parsed Item toks.length) := do
  let name ← definingName "CREATE" kwSpan toks
  let runs := allotRuns 0 name.value.span.stop name.rest
  return ⟨.create ⟨name.value.text, name.value.span, runs.value.1, ⟨kwSpan.start, runs.value.2⟩⟩,
    runs.rest, Nat.lt_of_lt_of_le runs.shorter name.shorter⟩

/-! The pending run. -/

/-- The top-level expressions since the last defining word, and where they began. -/
structure Pending where
  exprs : List Expr
  start : Option Span
  started : exprs ≠ [] → start.isSome

namespace Pending

def empty : Pending := ⟨[], none, fun h => absurd rfl h⟩

def push (p : Pending) (e : Expr) (span : Span) : Pending :=
  ⟨p.exprs ++ [e], some (p.start.getD span), fun _ => rfl⟩

/-- Without its last expression; the start is kept. -/
def pop (p : Pending) : Pending :=
  ⟨p.exprs.dropLast, p.start, fun h => p.started fun he => h (by rw [he]; rfl)⟩

def items (p : Pending) : List Item :=
  match p.exprs.getLast?, p.start with
  | some last, some start => [.topLevel p.exprs ⟨start.start, last.span.stop⟩]
  | _, _ => []

def flushed (p : Pending) : Pending :=
  if p.exprs.isEmpty then ⟨[], p.start, fun h => absurd rfl h⟩ else empty

end Pending

/-- A single pending literal is a constant by itself; anything else is computed. -/
def constValue : List Expr → ConstValue
  | [.lit (.int value _)] => .int value
  | [.lit (.float value _)] => .float value
  | exprs => .computed exprs

def collectionKind : String → Option CollectionKind
  | "array" => some .array
  | "farray" => some .farray
  | "cbuffer" => some .cbuffer
  | _ => none

def CollectionKind.keyword : CollectionKind → String
  | .array => "ARRAY"
  | .farray => "FARRAY"
  | .cbuffer => "CBUFFER"

/-- The pending size of a collection, which has to be a literal. -/
def collectionSize (kind : CollectionKind) (kwSpan : Span) (last : Option Expr) :
    Except ParseError (Nat × Span) :=
  match last with
  | none => .error (.constantWithoutValue kind.keyword kwSpan)
  | some (.lit (.int value span)) =>
    if 0 ≤ value then .ok (asU32 value, span)
    else .error (.nonLiteralConstantValue kind.keyword span)
  | some e => .error (.nonLiteralConstantValue kind.keyword e.span)

def collectionDefinition (kind : CollectionKind) (kwSpan : Span) (pending : Pending)
    (toks : List Token) : Except ParseError (Parsed Item toks.length) := do
  let size ← collectionSize kind kwSpan pending.exprs.getLast?
  let name ← definingName kind.keyword kwSpan toks
  return name.map fun n => .collection ⟨n.text, n.span, kind, size.1, ⟨size.2.start, n.span.stop⟩⟩

def constantDefinition (flavour : ConstFlavour) (kwSpan : Span) (pending : Pending)
    (toks : List Token) : Except ParseError (Parsed Item toks.length) :=
  let keyword := if flavour = .float then "FCONSTANT" else "CONSTANT"
  match pending.exprs with
  | [] => .error (.constantWithoutValue keyword kwSpan)
  | first :: rest =>
    (definingName keyword kwSpan toks).map fun p => p.map fun name =>
      .constant ⟨name.text, name.span, constValue (first :: rest),
        ⟨first.span.start, name.span.stop⟩, flavour⟩

def valueDefinition (kwSpan : Span) (pending : Pending) (toks : List Token) :
    Except ParseError (Parsed Item toks.length) :=
  match pending.exprs with
  | [] => .error (.constantWithoutValue "VALUE" kwSpan)
  | first :: rest =>
    (definingName "VALUE" kwSpan toks).map fun p => p.map fun name =>
      .value ⟨name.text, name.span, first :: rest, ⟨first.span.start, name.span.stop⟩⟩

/-- What a token at top level does to the pending run. -/
inductive Opener where
  /-- An expression, which joins the run. -/
  | expr
  /-- A defining word before which the run is executed. -/
  | flushing (parse : Span → (toks : List Token) → Except ParseError (Parsed Item toks.length))
  /-- A defining word that takes the last expression of the run. -/
  | collection (kind : CollectionKind)
  /-- A defining word that takes the whole run. -/
  | taking (parse : Span → Pending → (toks : List Token) →
      Except ParseError (Parsed Item toks.length))
  | semicolon

def opener : Lex.Tok → Opener
  | .word w =>
    match lower w with
    | ":" => .flushing (colonDefinition parseLet)
    | ";" => .semicolon
    | "variable" => .flushing variableDefinition
    | "needs" => .flushing needsDirective
    | "create" => .flushing createDefinition
    | "array" => .collection .array
    | "farray" => .collection .farray
    | "cbuffer" => .collection .cbuffer
    | "constant" => .taking (constantDefinition .cell)
    | "fconstant" => .taking (constantDefinition .float)
    | "class:" => .flushing classDefinition
    | "generic:" => .flushing genericDeclaration
    | "method:" => .flushing fun span => methodDefinition parseLet span "METHOD:" .primary
    | "method-before:" => .flushing fun span =>
        methodDefinition parseLet span "METHOD-BEFORE:" .before
    | "method-after:" => .flushing fun span =>
        methodDefinition parseLet span "METHOD-AFTER:" .after
    | "value" => .taking valueDefinition
    | _ => .expr
  | _ => .expr

/-- The top-level loop; the items behind those already read. -/
def programFrom (pending : Pending) (toks : List Token) : Except ParseError (List Item) :=
  match nextCode toks with
  | none => .ok pending.items
  | some ⟨⟨t, span⟩, rest, h⟩ =>
    match opener parseLet t with
    | .semicolon => .error (.straySemicolon span)
    | .expr => do
      let e ← exprOne parseLet t span rest
      have _he : e.rest.length < toks.length := Nat.lt_of_lt_of_le e.shorter h
      programFrom (pending.push e.value span) e.rest
    | .flushing parse => do
      let item ← parse span rest
      have _hi : item.rest.length < toks.length := Nat.lt_trans item.shorter h
      let items ← programFrom pending.flushed item.rest
      return pending.items ++ item.value :: items
    | .collection kind => do
      let item ← collectionDefinition kind span pending rest
      have _hi : item.rest.length < toks.length := Nat.lt_trans item.shorter h
      let items ← programFrom pending.pop.flushed item.rest
      return pending.pop.items ++ item.value :: items
    | .taking parse => do
      let item ← parse span pending rest
      have _hi : item.rest.length < toks.length := Nat.lt_trans item.shorter h
      let items ← programFrom .empty item.rest
      return item.value :: items
termination_by toks.length

def parse (toks : List Token) : Except ParseError Program :=
  (programFrom parseLet .empty toks).map Program.mk

end Items
end FactorForth.Compiler
