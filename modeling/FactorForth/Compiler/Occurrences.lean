import FactorForth.Compiler.EmitItems

/-! The places of a body where a word is named, and the user words that its emitted code names. -/

namespace FactorForth.Compiler
open FactorForth.Library

mutual
/-- The references and ticks of an expression, with their spans, in source order. -/
def exprOccurrences : Expr → List (String × Span)
  | .wordRef name span => [(name, span)]
  | .tick name span => [(name, span)]
  | .ifElse thenBody none _ => occurrences thenBody
  | .ifElse thenBody (some elseBody) _ => occurrences thenBody ++ occurrences elseBody
  | .beginUntil body _ => occurrences body
  | .beginAgain body _ => occurrences body
  | .doLoop _ body _ _ => occurrences body
  | .beginWhileRepeat pred body _ => occurrences pred ++ occurrences body
  | .caseOf arms none _ => armsOccurrences arms
  | .caseOf arms (some default) _ => armsOccurrences arms ++ occurrences default
  | _ => []

def armsOccurrences : List (CaseArm Expr) → List (String × Span)
  | [] => []
  | ⟨matchExpr, body, _⟩ :: arms => occurrences matchExpr ++ occurrences body ++ armsOccurrences arms

def occurrences : List Expr → List (String × Span)
  | [] => []
  | e :: es => exprOccurrences e ++ occurrences es
end

mutual
/-- The expressions without bodies in an expression, at any depth and in source order. -/
def exprLeaves : Expr → List Expr
  | .ifElse thenBody none _ => leaves thenBody
  | .ifElse thenBody (some elseBody) _ => leaves thenBody ++ leaves elseBody
  | .beginUntil body _ => leaves body
  | .beginAgain body _ => leaves body
  | .doLoop _ body _ _ => leaves body
  | .beginWhileRepeat pred body _ => leaves pred ++ leaves body
  | .caseOf arms none _ => armsLeaves arms
  | .caseOf arms (some default) _ => armsLeaves arms ++ leaves default
  | e => [e]

def armsLeaves : List (CaseArm Expr) → List Expr
  | [] => []
  | ⟨matchExpr, body, _⟩ :: arms => leaves matchExpr ++ leaves body ++ armsLeaves arms

def leaves : List Expr → List Expr
  | [] => []
  | e :: es => exprLeaves e ++ leaves es
end

theorem leaves_append (xs ys : List Expr) : leaves (xs ++ ys) = leaves xs ++ leaves ys := by
  induction xs with
  | nil => rfl
  | cons x xs ih => rw [List.cons_append, leaves, ih, leaves, List.append_assoc]

def leafOccurrences : Expr → List (String × Span)
  | .wordRef name span => [(name, span)]
  | .tick name span => [(name, span)]
  | _ => []

mutual
theorem exprOccurrences_leaves : ∀ e : Expr,
    exprOccurrences e = (exprLeaves e).flatMap leafOccurrences
  | .ifElse thenBody none _ => occurrences_leaves thenBody
  | .ifElse thenBody (some elseBody) _ => by
    rw [exprOccurrences, exprLeaves, List.flatMap_append, occurrences_leaves thenBody,
      occurrences_leaves elseBody]
  | .beginUntil body _ => occurrences_leaves body
  | .beginAgain body _ => occurrences_leaves body
  | .doLoop _ body _ _ => occurrences_leaves body
  | .beginWhileRepeat pred body _ => by
    rw [exprOccurrences, exprLeaves, List.flatMap_append, occurrences_leaves pred,
      occurrences_leaves body]
  | .caseOf arms none _ => armsOccurrences_leaves arms
  | .caseOf arms (some default) _ => by
    rw [exprOccurrences, exprLeaves, List.flatMap_append, armsOccurrences_leaves arms,
      occurrences_leaves default]
  | .lit _ | .wordRef _ _ | .tick _ _ | .toValue _ _ | .see _ _ | .letForm _ _ | .locals _ _ => rfl

theorem armsOccurrences_leaves : ∀ arms : List (CaseArm Expr),
    armsOccurrences arms = (armsLeaves arms).flatMap leafOccurrences
  | [] => rfl
  | ⟨matchExpr, body, _⟩ :: arms => by
    rw [armsOccurrences, armsLeaves, List.flatMap_append, List.flatMap_append,
      occurrences_leaves matchExpr, occurrences_leaves body, armsOccurrences_leaves arms]

theorem occurrences_leaves : ∀ es : List Expr, occurrences es = (leaves es).flatMap leafOccurrences
  | [] => rfl
  | e :: es => by
    rw [occurrences, leaves, List.flatMap_append, exprOccurrences_leaves e, occurrences_leaves es]
end

def Target.userWord? : Target → Option String
  | .userDefined name => some name
  | _ => none

mutual
/-- The user words that a token names, inside its quotation too. -/
def Tok.userWords : Tok → List String
  | .word t => t.userWord?.toList
  | .quot q => toksUserWords q
  | _ => []

def toksUserWords : List Tok → List String
  | [] => []
  | t :: ts => t.userWords ++ toksUserWords ts
end

mutual
/-- What `pick` takes from the words that a token names, inside its quotation too. -/
def Tok.picked (pick : Target → Option String) : Tok → List String
  | .word t => (pick t).toList
  | .quot q => toksPicked pick q
  | _ => []

def toksPicked (pick : Target → Option String) : List Tok → List String
  | [] => []
  | t :: ts => t.picked pick ++ toksPicked pick ts
end

mutual
theorem Tok.userWords_picked : ∀ t : Tok, t.userWords = t.picked Target.userWord?
  | .word _ => rfl
  | .quot q => toksUserWords_picked q
  | .int _ | .float _ | .str _ | .report _ | .symbol _ | .name _ | .prim _ | .bind _
  | .letForm _ => rfl

theorem toksUserWords_picked : ∀ ts : List Tok, toksUserWords ts = toksPicked Target.userWord? ts
  | [] => rfl
  | t :: ts => by rw [toksUserWords, t.userWords_picked, toksUserWords_picked ts, toksPicked]
end

section Picked
variable {pick : Target → Option String}

theorem toksPicked_append (xs ys : List Tok) :
    toksPicked pick (xs ++ ys) = toksPicked pick xs ++ toksPicked pick ys := by
  induction xs with
  | nil => rfl
  | cons x xs ih => rw [List.cons_append, toksPicked, ih, toksPicked, List.append_assoc]

theorem toksPicked_quot (q : List Tok) : toksPicked pick [.quot q] = toksPicked pick q := by
  rw [toksPicked, toksPicked, List.append_nil, Tok.picked]

end Picked

theorem toksUserWords_append (xs ys : List Tok) :
    toksUserWords (xs ++ ys) = toksUserWords xs ++ toksUserWords ys := by
  simp only [toksUserWords_picked, toksPicked_append]

theorem nameToks_picked (pick : Target → Option String) (names : List String) :
    toksPicked pick (nameToks names) = [] := by
  induction names with
  | nil => rfl
  | cons n ns ih =>
    have hCons : nameToks (n :: ns) = .name n :: nameToks ns := rfl
    rw [hCons, toksPicked, ih]
    rfl

theorem nameToks_userWords (names : List String) : toksUserWords (nameToks names) = [] := by
  rw [toksUserWords_picked, nameToks_picked]

section Refs
variable {r : Sema} {pick : Target → Option String}

/-- What is picked from the targets recorded for occurrences. -/
def occPicked (r : Sema) (pick : Target → Option String) (os : List (String × Span)) : List String :=
  os.filterMap fun o => (r.wordTargets.lookup o.2).bind pick

/-- The user words that occurrences stand for, by the targets recorded for them. -/
def occRefs (r : Sema) (os : List (String × Span)) : List String :=
  os.filterMap fun o => (r.wordTargets.lookup o.2).bind Target.userWord?

def bodyRefs (r : Sema) (body : List Expr) : List String := occRefs r (occurrences body)

theorem occPicked_append (xs ys : List (String × Span)) :
    occPicked r pick (xs ++ ys) = occPicked r pick xs ++ occPicked r pick ys := List.filterMap_append

theorem emitWord_picked (name : String) (span : Span) :
    (emitWord r name span).picked pick = occPicked r pick [(name, span)] := by
  simp only [emitWord, occPicked, List.filterMap_cons, List.filterMap_nil]
  cases r.wordTargets.lookup span with
  | none => rfl
  | some t =>
    show (pick t).toList = _
    cases hPick : pick t with
    | none => simp [hPick]
    | some n => simp [hPick]

/-- The words of the system that the emitter writes itself are not picked. -/
def OwnWordsOnly (pick : Target → Option String) : Prop :=
  ∀ vocab name, pick (.builtin vocab name) = none ∧ pick (.qualifiedBuiltin vocab name) = none

variable (hPick : OwnWordsOnly pick)
include hPick

theorem emitLiteral_picked (l : Literal) : toksPicked pick (emitLiteral l) = [] := by
  have hRuntime : ∀ s, (runtimeWord s).picked pick = [] := fun s => by
    rw [runtimeWord, Tok.picked, (hPick _ _).2]
    rfl
  cases l with
  | str value kind span => cases kind <;> simp [emitLiteral, toksPicked, Tok.picked, hRuntime]
  | _ => rfl

omit hPick in
theorem emitLocals_picked (names : List LocalDecl) : toksPicked pick (emitLocals names) = [] := by
  rw [emitLocals]
  induction names.reverse with
  | nil => rfl
  | cons l ls ih => simp only [List.map_cons, toksPicked, ih, Tok.picked, List.append_nil]

variable (hw : Wide r) (n : String)
include hw

mutual
theorem mem_picked_emitExpr : ∀ e : Expr,
    n ∈ toksPicked pick (emitExpr r e) ↔ n ∈ occPicked r pick (exprOccurrences e)
  | .lit l => by
    rw [emitExpr, emitLiteral_picked hPick]
    rfl
  | .wordRef name span => by
    rw [emitExpr, toksPicked, toksPicked, List.append_nil, emitWord_picked]
    rfl
  | .tick name span => by
    rw [emitExpr, toksPicked_quot, toksPicked, toksPicked, List.append_nil, emitWord_picked]
    rfl
  | .ifElse thenBody none _ => by
    simp only [emitExpr, toksPicked, Tok.picked, List.nil_append, List.append_nil]
    exact mem_picked_emitExprs thenBody
  | .ifElse thenBody (some elseBody) _ => by
    simp only [emitExpr, toksPicked, Tok.picked, List.nil_append, List.append_nil,
      exprOccurrences, occPicked_append, List.mem_append]
    rw [mem_picked_emitExprs thenBody, mem_picked_emitExprs elseBody, or_comm]
  | .beginUntil body _ => by
    simp only [emitExpr, toksPicked, Tok.picked, toksPicked_append, List.append_nil]
    exact mem_picked_emitExprs body
  | .beginAgain body _ => by
    simp only [emitExpr, toksPicked, Tok.picked, toksPicked_append, List.append_nil]
    exact mem_picked_emitExprs body
  | .beginWhileRepeat pred body _ => by
    simp only [emitExpr, toksPicked, Tok.picked, toksPicked_append, List.append_nil,
      List.nil_append, exprOccurrences, occPicked_append, List.mem_append]
    rw [mem_picked_emitExprs pred, mem_picked_emitExprs body]
  | .doLoop isQdo body loopKind _ => by
    have hStep : toksPicked pick (if loopKind = .plus1 then [Tok.int 1] else []) = [] := by
      split <;> rfl
    simp only [emitExpr, toksPicked, Tok.picked, toksPicked_append, hStep, List.append_nil]
    exact mem_picked_emitExprs body
  | .caseOf arms none _ => by
    rw [emitExpr, mem_picked_emitCaseChain arms]
    simp [toksPicked, Tok.picked, exprOccurrences]
  | .caseOf arms (some default) _ => by
    rw [emitExpr, mem_picked_emitCaseChain arms, toksPicked_append]
    simp only [toksPicked, Tok.picked, List.append_nil, exprOccurrences, occPicked_append,
      List.mem_append]
    rw [mem_picked_emitExprs default]
  | .toValue _ _ => by
    simp [emitExpr, toksPicked, Tok.picked, setGlobal, (hPick _ _).1, exprOccurrences, occPicked]
  | .see _ _ => by
    simp [emitExpr, toksPicked, Tok.picked, runtimeWord, (hPick _ _).2, exprOccurrences, occPicked]
  | .letForm _ _ => by
    simp [emitExpr, toksPicked, Tok.picked, exprOccurrences, occPicked]
  | .locals names _ => by
    rw [emitExpr, emitLocals_picked]
    rfl

theorem mem_picked_emitCaseChain : ∀ (arms : List (CaseArm Expr)) (base : List Tok),
    n ∈ toksPicked pick (emitCaseChain r arms base) ↔
      n ∈ occPicked r pick (armsOccurrences arms) ∨ n ∈ toksPicked pick base
  | [], base => by simp [emitCaseChain, armsOccurrences, occPicked]
  | ⟨matchExpr, body, _⟩ :: arms, base => by
    simp only [emitCaseChain, toksPicked, Tok.picked, toksPicked_append, List.append_nil,
      List.nil_append, armsOccurrences, occPicked_append, List.mem_append, or_assoc]
    rw [mem_picked_emitExprs matchExpr, mem_picked_emitExprs body, mem_picked_emitCaseChain arms]

theorem mem_picked_emitExprs : ∀ es : List Expr,
    n ∈ toksPicked pick (emitExprs r es) ↔ n ∈ occPicked r pick (occurrences es)
  | [] => by simp [emitExprs, toksPicked, occurrences, occPicked]
  | e :: es => by
    rw [emitExprs_cons hw, toksPicked_append, List.mem_append, mem_picked_emitExpr e,
      mem_picked_emitExprs es, occurrences, occPicked_append, List.mem_append]
end

theorem mem_picked_emitBody (body : List Expr) :
    n ∈ toksPicked pick (emitBody r body) ↔ n ∈ occPicked r pick (occurrences body) := by
  rw [emitBody]
  split
  · simp only [toksPicked, Tok.picked, List.append_nil]
    exact mem_picked_emitExprs hPick hw n body
  · exact mem_picked_emitExprs hPick hw n body

end Refs

/-! The user words of an emitted body. -/

section UserWords
variable {r : Sema}

theorem userWord_ownWordsOnly : OwnWordsOnly Target.userWord? := fun _ _ => ⟨rfl, rfl⟩

variable (hw : Wide r) (n : String)
include hw

theorem mem_emitExprs (es : List Expr) : n ∈ toksUserWords (emitExprs r es) ↔ n ∈ bodyRefs r es := by
  rw [toksUserWords_picked]
  exact mem_picked_emitExprs userWord_ownWordsOnly hw n es

theorem mem_emitBody (body : List Expr) :
    n ∈ toksUserWords (emitBody r body) ↔ n ∈ bodyRefs r body := by
  rw [toksUserWords_picked]
  exact mem_picked_emitBody userWord_ownWordsOnly hw n body

end UserWords
end FactorForth.Compiler
