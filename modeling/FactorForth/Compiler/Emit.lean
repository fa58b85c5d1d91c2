import FactorForth.Compiler.Ir
import FactorForth.Compiler.Sema

/-! Emission: the code of an expression, the definition forms of the items, and their order. -/

namespace FactorForth.Compiler
open FactorForth.Library

def valueStorageName (nameLc : String) : String := "nf-value-" ++ nameLc

/-- The spelling a local gets where it is bound; `_` is a discard. -/
def bindingName (name : String) : Option String :=
  if name = "_" then none
  else some (String.ofList ((lower name).toList.map fun c => if c = '.' then '_' else c))

/-! SEE reports. -/

def effectLetter (i : Nat) : String :=
  if i < 26 then String.singleton (Char.ofNat ('a'.toNat + i)) else "x" ++ toString (i - 26)

def renderEffectCounts (inputs outputs : Nat) : String :=
  "( " ++ String.join ((List.range inputs).map fun i => effectLetter i ++ " ") ++ "-- " ++
    String.join ((List.range outputs).map fun o => effectLetter (inputs + o) ++ " ") ++ ")"

/-- Rust's `str::lines`: split at line feeds, each with the return in front of it, without an empty last
piece. -/
def sourceLines (s : String) : List String :=
  let pieces := s.toList.splitOn '\n'
  let last := pieces.getLastD []
  (pieces.dropLast.map fun l =>
      String.ofList (if l.getLast? = some '\r' then l.dropLast else l)) ++
    if last.isEmpty then [] else [String.ofList last]

def docReport (name : String) (doc : WordDoc) : String :=
  name ++ "   " ++ doc.kind ++ (if doc.effect.isEmpty then "" else "   " ++ doc.effect) ++ "\n" ++
    (if doc.detail.isEmpty then "" else "  " ++ doc.detail ++ "\n") ++
    if doc.source.isEmpty then ""
    else "  source:\n" ++ String.join ((sourceLines doc.source).map fun l => "    " ++ l ++ "\n")

def builtinReport (name lc : String) : String :=
  name ++ "   builtin (core word)" ++
    (match builtinEffects.lookup lc with
      | some (.known inputs outputs) => "   " ++ renderEffectCounts inputs outputs
      | _ => "") ++ "\n"

def seeReport (docs : Dict String WordDoc) (name : String) : String :=
  let lc := lower name
  match docs.lookup lc with
  | some doc => docReport name doc
  | none =>
    if Dict.contains builtinTable lc then builtinReport name lc
    else name ++ "   (unknown word — not defined this session)\n"

/-! Expressions. -/

/-- A narrow variable and the sink behind it are one access to a global. -/
def tryEmitNarrowSink (escape : Dict String EscapeState) : Expr → Expr → Option (List Tok)
  | .wordRef varName _, .wordRef nextName _ =>
    let varLc := lower varName
    if escape.lookup varLc = some .narrow then
      let n := Tok.symbol (factorUserName varLc)
      match lower nextName with
      | "@" => some [n, getGlobal]
      | "c@" => some [n, getGlobal]
      | "!" => some [n, setGlobal]
      | "c!" => some [n, setGlobal]
      | "+!" => some [n, getGlobal, plusTok, n, setGlobal]
      | _ => none
    else none
  | _, _ => none

def emitLiteral : Literal → List Tok
  | .int value _ => [.int value]
  | .float value _ => [.float value]
  | .str value .dotQuote _ => [.str value, runtimeWord "print-string"]
  | .str value .sQuote _ => [.str value, runtimeWord "s-quote-runtime"]
  | .str value .sDollarQuote _ => [.str value]
  | .str value .cQuote _ => [.str value]

/-- The token of a reference; without a target its name stands for itself. -/
def emitWord (r : Sema) (name : String) (span : Span) : Tok :=
  match r.wordTargets.lookup span with
  | some t => .word t
  | none => .name name

def emitLocals (names : List LocalDecl) : List Tok :=
  names.reverse.map fun l => .bind (bindingName l.name)

mutual
def emitExpr (r : Sema) : Expr → List Tok
  | .lit l => emitLiteral l
  | .wordRef name span => [emitWord r name span]
  | .ifElse thenBody none _ => [.prim .zeroP, .quot (emitExprs r thenBody), .prim .unlessQ]
  | .ifElse thenBody (some elseBody) _ =>
    [.prim .zeroP, .quot (emitExprs r elseBody), .quot (emitExprs r thenBody), .prim .ifQ]
  | .beginUntil body _ => [.quot (emitExprs r body ++ [.prim .zeroP]), .prim .loop]
  | .beginWhileRepeat pred body _ =>
    [.quot (emitExprs r pred ++ [.prim .zeroP, .quot [.prim .f],
      .quot (emitExprs r body ++ [.prim .t]), .prim .ifQ]), .prim .loop]
  | .beginAgain body _ => [.quot (emitExprs r body ++ [.prim .t]), .prim .loop]
  | .doLoop isQdo body loopKind _ =>
    [.quot (emitExprs r body ++ if loopKind = .plus1 then [.int 1] else []),
      .prim (if isQdo then .qdoLoop else .doLoop)]
  | .caseOf arms none _ => emitCaseChain r arms [.prim .kernelDrop]
  | .caseOf arms (some default) _ => emitCaseChain r arms (emitExprs r default ++ [.prim .kernelDrop])
  | .tick name span => [.quot [emitWord r name span]]
  | .toValue name _ => [.symbol (valueStorageName (lower name)), setGlobal]
  | .see name _ => [.report (seeReport r.docs name), runtimeWord "print-string"]
  | .letForm form _ => [.letForm form]
  | .locals names _ => emitLocals names

/-- `dup MATCH = [ drop BODY ] [ rest ] if` for each arm, then the code of the no-match path. -/
def emitCaseChain (r : Sema) : List (CaseArm Expr) → List Tok → List Tok
  | [], base => base
  | ⟨matchExpr, body, _⟩ :: arms, base =>
    .prim .dup :: emitExprs r matchExpr ++
      [.prim .eq, .quot (.prim .drop :: emitExprs r body), .quot (emitCaseChain r arms base),
        .prim .ifQ]

def emitExprs (r : Sema) : List Expr → List Tok
  | [] => []
  | [e] => emitExpr r e
  | e :: next :: rest =>
    match tryEmitNarrowSink r.escape e next with
    | some access => access ++ emitExprs r rest
    | none => emitExpr r e ++ emitExprs r (next :: rest)
end

section Wide
variable {r : Sema}

/-- No variable of the program is kept in a global of its own. -/
def Wide (r : Sema) : Prop := ∀ name, r.escape.lookup name ≠ some .narrow

theorem tryEmitNarrowSink_wide (hw : Wide r) (e next : Expr) :
    tryEmitNarrowSink r.escape e next = none := by
  unfold tryEmitNarrowSink
  split
  next name _ nextName _ => rw [if_neg (hw (lower name))]
  next => rfl

theorem emitExprs_cons (hw : Wide r) (e : Expr) (es : List Expr) :
    emitExprs r (e :: es) = emitExpr r e ++ emitExprs r es := by
  cases es with
  | nil => rw [emitExprs, emitExprs, List.append_nil]
  | cons next es => rw [emitExprs, tryEmitNarrowSink_wide hw]

theorem emitExprs_append (hw : Wide r) (xs ys : List Expr) :
    emitExprs r (xs ++ ys) = emitExprs r xs ++ emitExprs r ys := by
  induction xs with
  | nil => rw [emitExprs, List.nil_append, List.nil_append]
  | cons x xs ih =>
    rw [List.cons_append, emitExprs_cons hw, ih, emitExprs_cons hw, List.append_assoc]

end Wide

end FactorForth.Compiler
