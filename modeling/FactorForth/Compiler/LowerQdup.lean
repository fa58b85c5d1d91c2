import FactorForth.Compiler.Ast

/-! The two passes before resolution: `?DUP IF` becomes `DUP IF … ELSE DROP … THEN`, and RECURSE
becomes a reference to the definition it stands in. -/

namespace FactorForth.Compiler

/-- The process-wide counter of synthetic spans counts down, modulo 2^32, from this value. -/
def synthCounterStart : Nat := 0xFFFF0000

def synthCounterNext (n : Nat) : Nat := if n = 0 then 2 ^ 32 - 1 else n - 1

def synthSpan (orig : Span) (n : Nat) : Span :=
  ⟨⟨orig.start.line, orig.start.col, n⟩, ⟨orig.stop.line, orig.stop.col, n⟩⟩

def isQdupWord : Expr → Bool
  | .wordRef name _ => eqIgnoreAsciiCase name "?dup"
  | _ => false

mutual
def qdupExpr : Expr → Nat → Expr × Nat
  | .ifElse thenBody none span, n =>
    let (thenL, n) := qdupSeq thenBody n
    (.ifElse thenL none span, n)
  | .ifElse thenBody (some elseBody) span, n =>
    let (thenL, n) := qdupSeq thenBody n
    let (elseL, n) := qdupSeq elseBody n
    (.ifElse thenL (some elseL) span, n)
  | .beginUntil body span, n =>
    let (body, n) := qdupSeq body n
    (.beginUntil body span, n)
  | .beginAgain body span, n =>
    let (body, n) := qdupSeq body n
    (.beginAgain body span, n)
  | .beginWhileRepeat pred body span, n =>
    let (pred, n) := qdupSeq pred n
    let (body, n) := qdupSeq body n
    (.beginWhileRepeat pred body span, n)
  | .doLoop isQdo body loopKind span, n =>
    let (body, n) := qdupSeq body n
    (.doLoop isQdo body loopKind span, n)
  | .caseOf arms none span, n =>
    let (arms, n) := qdupArms arms n
    (.caseOf arms none span, n)
  | .caseOf arms (some default) span, n =>
    let (arms, n) := qdupArms arms n
    let (default, n) := qdupSeq default n
    (.caseOf arms (some default) span, n)
  | e, n => (e, n)

def qdupArms : List (CaseArm Expr) → Nat → List (CaseArm Expr) × Nat
  | [], n => ([], n)
  | ⟨matchExpr, body, span⟩ :: arms, n =>
    let (matchExpr, n) := qdupSeq matchExpr n
    let (body, n) := qdupSeq body n
    let (arms, n) := qdupArms arms n
    (⟨matchExpr, body, span⟩ :: arms, n)

def qdupSeq : List Expr → Nat → List Expr × Nat
  | [], n => ([], n)
  | e :: es, n =>
    match isQdupWord e, es with
    | true, .ifElse thenBody elseBody ifSpan :: rest =>
      let dupSpan := synthSpan e.span n
      let n := synthCounterNext n
      let dropSpan := synthSpan e.span n
      let n := synthCounterNext n
      let (thenL, n) := qdupSeq thenBody n
      let (elseL, n) := match elseBody with
        | none => ([], n)
        | some elseBody => qdupSeq elseBody n
      let (rest, n) := qdupSeq rest n
      (.wordRef "dup" dupSpan ::
        .ifElse thenL (some (.wordRef "drop" dropSpan :: elseL)) ifSpan :: rest, n)
    | _, es =>
      let (e, n) := qdupExpr e n
      let (es, n) := qdupSeq es n
      (e :: es, n)
end

def Item.lowerQdup : Item → Nat → Item × Nat
  | .definition d, n =>
    let (body, n) := qdupSeq d.body n
    (.definition { d with body }, n)
  | .topLevel exprs span, n =>
    let (exprs, n) := qdupSeq exprs n
    (.topLevel exprs span, n)
  | .constant c, n =>
    match c.value with
    | .computed exprs =>
      let (exprs, n) := qdupSeq exprs n
      (.constant { c with value := .computed exprs }, n)
    | _ => (.constant c, n)
  | .template t, n =>
    let (constructor, n) := qdupSeq t.constructor n
    let (doesBody, n) := qdupSeq t.doesBody n
    (.template { t with constructor, doesBody }, n)
  | .value v, n =>
    let (initial, n) := qdupSeq v.initial n
    (.value { v with initial }, n)
  | .method m, n =>
    let (body, n) := qdupSeq m.body n
    (.method { m with body }, n)
  | .templateInstance t, n =>
    let (doesBody, n) := qdupSeq t.doesBody n
    (.templateInstance { t with doesBody }, n)
  | item, n => (item, n)

def lowerQdupItems : List Item → Nat → List Item × Nat
  | [], n => ([], n)
  | item :: items, n =>
    let (item, n) := item.lowerQdup n
    let (items, n) := lowerQdupItems items n
    (item :: items, n)

def lowerQdup (prog : Program) (n : Nat) : Program × Nat :=
  let (items, n) := lowerQdupItems prog.items n
  (⟨items⟩, n)

/-! RECURSE. -/

mutual
def recurseExpr (target : String) : Expr → Expr
  | .wordRef name span =>
    if eqIgnoreAsciiCase name "recurse" then .wordRef target span else .wordRef name span
  | .ifElse thenBody none span => .ifElse (recurseSeq target thenBody) none span
  | .ifElse thenBody (some elseBody) span =>
    .ifElse (recurseSeq target thenBody) (some (recurseSeq target elseBody)) span
  | .beginUntil body span => .beginUntil (recurseSeq target body) span
  | .beginAgain body span => .beginAgain (recurseSeq target body) span
  | .beginWhileRepeat pred body span =>
    .beginWhileRepeat (recurseSeq target pred) (recurseSeq target body) span
  | .doLoop isQdo body loopKind span => .doLoop isQdo (recurseSeq target body) loopKind span
  | .caseOf arms none span => .caseOf (recurseArms target arms) none span
  | .caseOf arms (some default) span =>
    .caseOf (recurseArms target arms) (some (recurseSeq target default)) span
  | e => e

def recurseArms (target : String) : List (CaseArm Expr) → List (CaseArm Expr)
  | [] => []
  | ⟨matchExpr, body, span⟩ :: arms =>
    ⟨recurseSeq target matchExpr, recurseSeq target body, span⟩ :: recurseArms target arms

def recurseSeq (target : String) : List Expr → List Expr
  | [] => []
  | e :: es => recurseExpr target e :: recurseSeq target es
end

mutual
def exprSawRecurse : Expr → Bool
  | .wordRef name _ => eqIgnoreAsciiCase name "recurse"
  | .ifElse thenBody none _ => sawRecurse thenBody
  | .ifElse thenBody (some elseBody) _ => sawRecurse thenBody || sawRecurse elseBody
  | .beginUntil body _ => sawRecurse body
  | .beginAgain body _ => sawRecurse body
  | .beginWhileRepeat pred body _ => sawRecurse pred || sawRecurse body
  | .doLoop _ body _ _ => sawRecurse body
  | .caseOf arms none _ => armsSawRecurse arms
  | .caseOf arms (some default) _ => armsSawRecurse arms || sawRecurse default
  | _ => false

def armsSawRecurse : List (CaseArm Expr) → Bool
  | [] => false
  | ⟨matchExpr, body, _⟩ :: arms => sawRecurse matchExpr || sawRecurse body || armsSawRecurse arms

def sawRecurse : List Expr → Bool
  | [] => false
  | e :: es => exprSawRecurse e || sawRecurse es
end

def Item.lowerRecurse : Item → Item
  | .definition d => .definition { d with body := recurseSeq d.name d.body }
  | item => item

structure MissingRecurseEffect where
  wordName : String
  at_ : Span

def Item.missingRecurseEffect : Item → Option MissingRecurseEffect
  | .definition d =>
    if sawRecurse d.body && d.effect.isNone then some ⟨d.name, d.nameSpan⟩ else none
  | _ => none

def lowerRecurse (prog : Program) : Program × List MissingRecurseEffect :=
  (⟨prog.items.map Item.lowerRecurse⟩, prog.items.filterMap Item.missingRecurseEffect)

end FactorForth.Compiler
