import FactorForth.Correctness.ControlFlow
import FactorForth.Correctness.LexicalScope
import FactorForth.Semantics.QdupIf

/-! The `?DUP IF` pass against the ANS meaning of what it rewrites. The words it inserts are looked up
by their names, in the scope of the body they stand in. -/

namespace FactorForth.Correctness
open FactorForth.Library FactorForth.Compiler FactorForth.Semantics

/-! The words that the pass inserts, with the spans it makes for them. -/

mutual
def exprInserted : Expr → Nat → List (String × Span)
  | .ifElse thenBody none _, n => seqInserted thenBody n
  | .ifElse thenBody (some elseBody) _, n =>
    seqInserted thenBody n ++ seqInserted elseBody (qdupSeq thenBody n).2
  | .beginUntil body _, n => seqInserted body n
  | .beginAgain body _, n => seqInserted body n
  | .beginWhileRepeat pred body _, n =>
    seqInserted pred n ++ seqInserted body (qdupSeq pred n).2
  | .doLoop _ body _ _, n => seqInserted body n
  | .caseOf arms none _, n => armsInserted arms n
  | .caseOf arms (some default) _, n =>
    armsInserted arms n ++ seqInserted default (qdupArms arms n).2
  | _, _ => []

def armsInserted : List (CaseArm Expr) → Nat → List (String × Span)
  | [], _ => []
  | ⟨matchExpr, body, _⟩ :: arms, n =>
    let m := (qdupSeq matchExpr n).2
    seqInserted matchExpr n ++ seqInserted body m ++ armsInserted arms (qdupSeq body m).2

def seqInserted : List Expr → Nat → List (String × Span)
  | [], _ => []
  | e :: es, n =>
    match isQdupWord e, es with
    | true, .ifElse thenBody elseBody _ :: rest =>
      let m := synthCounterNext n
      let k := synthCounterNext m
      let j := (qdupSeq thenBody k).2
      [("dup", synthSpan e.span n), ("drop", synthSpan e.span m)] ++ seqInserted thenBody k ++
        match elseBody with
        | none => seqInserted rest j
        | some elseBody => seqInserted elseBody j ++ seqInserted rest (qdupSeq elseBody j).2
    | _, es => exprInserted e n ++ seqInserted es (qdupExpr e n).2
end

/-! A body behind the pass runs as ANS says of the body in front of it. -/

section Meaning
variable {Obj World : Type} {V : Vm Obj World} {r : Sema} {copySelector : Bool}

theorem ansIf_none (thenBody : Command Obj World PUnit) :
    ansIf V thenBody (pure ⟨⟩) = (do
      if ← popFlag V then inScope thenBody
      else pure ⟨⟩) := by
  unfold ansIf
  rw [(KeepsEnv.pure _).inScope_eq]

/-- The inserted words have the targets that the pass means. -/
def Inserted (r : Sema) (os : List (String × Span)) : Prop :=
  ∀ o ∈ os, r.wordTargets.lookup o.2 = some (.builtin "kernel" o.1)

theorem inserted_append {os os' : List (String × Span)} :
    Inserted r (os ++ os') ↔ Inserted r os ∧ Inserted r os' := List.forall_mem_append

variable (hw : Wide r) (hV : StackWords V)
include hw hV

mutual
theorem exec_qdupExpr : ∀ (e : Expr) (n : Nat) (rest : List Expr), Inserted r (exprInserted e n) →
    execExpr V r (Rules.free copySelector) rest (qdupExpr e n).1 = ansExpr V r copySelector e
  | .ifElse thenBody none _, n, rest, h => by
    rw [qdupExpr, ansExpr, ansIf_none, ← exec_qdupSeq thenBody n rest h]
    dsimp only
    rw [execExpr]
  | .ifElse thenBody (some elseBody) _, n, rest, h => by
    obtain ⟨hThen, hElse⟩ := inserted_append.mp h
    rw [qdupExpr, ansExpr, ← exec_qdupSeq thenBody n rest hThen,
      ← exec_qdupSeq elseBody _ rest hElse]
    dsimp only
    rw [execExpr]
    rfl
  | .beginUntil body _, n, rest, h => by
    rw [qdupExpr, ansExpr, ← exec_qdupSeq body n [] h]
    dsimp only
    rw [execExpr]
    simp only [Rules.free, Cmd.guard_of fun _ => trivial]
  | .beginAgain body _, n, rest, h => by
    rw [qdupExpr, ansExpr, ← exec_qdupSeq body n [] h]
    dsimp only
    rw [execExpr]
    simp only [Rules.free, Cmd.guard_of fun _ => trivial]
  | .beginWhileRepeat pred body _, n, rest, h => by
    obtain ⟨hPred, hBody⟩ := inserted_append.mp h
    rw [qdupExpr, ansExpr, ← exec_qdupSeq pred n [] hPred, ← exec_qdupSeq body _ [] hBody]
    dsimp only
    rw [execExpr]
    simp only [Rules.free, Cmd.guard_of fun _ => trivial]
  | .doLoop isQdo body loopKind _, n, rest, h => by
    rw [qdupExpr, ansExpr, ← exec_qdupSeq body n [] h]
    dsimp only
    rw [execExpr]
    simp only [Rules.free, Cmd.guard_of fun _ => trivial]
  | .caseOf arms none _, n, rest, h => by
    rw [qdupExpr, ansExpr]
    dsimp only
    rw [execExpr]
    exact exec_qdupArms arms n rest _ _ h (guard_free (fun _ => trivial) _)
  | .caseOf arms (some default) _, n, rest, h => by
    obtain ⟨hArms, hDefault⟩ := inserted_append.mp h
    rw [qdupExpr, ansExpr]
    dsimp only
    rw [execExpr]
    apply exec_qdupArms arms n rest _ _ hArms
    rw [← exec_qdupSeq default _ rest hDefault]
    exact guard_free (fun _ => trivial) _
  | .lit l, n, rest, h => by
    rw [qdupExpr, ansExpr, execExpr, execExpr]
    all_goals simp
  | .wordRef name span, n, rest, h => by
    rw [qdupExpr, ansExpr, execExpr, execExpr]
    all_goals simp
  | .tick name span, n, rest, h => by
    rw [qdupExpr, ansExpr, execExpr, execExpr]
    all_goals simp
  | .toValue name span, n, rest, h => by
    rw [qdupExpr, ansExpr, execExpr, execExpr]
    all_goals simp
  | .see name span, n, rest, h => by
    rw [qdupExpr, ansExpr, execExpr, execExpr]
    all_goals simp
  | .letForm form span, n, rest, h => by
    rw [qdupExpr, ansExpr, execExpr, execExpr]
    all_goals simp
  | .locals names span, n, rest, h => by
    rw [qdupExpr, ansExpr, execExpr, execExpr]
    all_goals simp

theorem exec_qdupArms : ∀ (arms : List (CaseArm Expr)) (n : Nat) (rest : List Expr)
    (base base' : Command Obj World PUnit), Inserted r (armsInserted arms n) → base = base' →
    execArms V r (Rules.free copySelector) rest (qdupArms arms n).1 base =
      ansArms V r copySelector arms base'
  | [], n, rest, base, base', h, hBase => by rw [qdupArms, execArms, ansArms, hBase]
  | ⟨matchExpr, body, _⟩ :: arms, n, rest, base, base', h, hBase => by
    obtain ⟨hHead, hArms⟩ := inserted_append.mp h
    obtain ⟨hMatch, hBody⟩ := inserted_append.mp hHead
    rw [qdupArms, ansArms, ← exec_qdupSeq matchExpr n [] hMatch, ← exec_qdupSeq body _ rest hBody,
      ← exec_qdupArms arms _ rest base base' hArms hBase]
    dsimp only
    rw [execArms]
    exact guard_free (fun _ => trivial) _

theorem exec_qdupSeq : ∀ (es : List Expr) (n : Nat) (rest : List Expr),
    Inserted r (seqInserted es n) →
    execSeq V r (Rules.free copySelector) rest (qdupSeq es n).1 = ansSeq V r copySelector es
  | [], n, rest, h => by rw [qdupSeq, execSeq, ansSeq]
  | e :: es, n, rest, h => by
    rw [seqInserted.eq_def] at h
    dsimp only at h
    split at h
    · rename_i thenBody elseBody span tail hQdup
      obtain ⟨hPair, hRest⟩ := inserted_append.mp h
      obtain ⟨hWords, hThen⟩ := inserted_append.mp hPair
      have hDup := hWords _ List.mem_cons_self
      have hDrop := hWords _ (List.mem_cons_of_mem _ List.mem_cons_self)
      have hThenRun := fun after => exec_qdupSeq thenBody _ after hThen
      cases elseBody with
      | none =>
        rw [qdupSeq.eq_2 _ _ _ _ _ _ hQdup, ansSeq.eq_2 _ _ _ _ _ _ _ hQdup,
          ← exec_qdupSeq tail _ rest hRest, ← hThenRun, ← bind_assoc, ← qdupIf_eq hV, bind_assoc]
        dsimp only
        rw [execSeq_cons hw, execSeq_cons hw, execExpr, execExpr, execWord, hDup, execSeq_cons hw,
          execExpr, execWord, hDrop, execSeq]
        rfl
      | some elseBody =>
        obtain ⟨hElse, hTail⟩ := inserted_append.mp hRest
        rw [qdupSeq.eq_2 _ _ _ _ _ _ hQdup, ansSeq.eq_3 _ _ _ _ _ _ _ _ hQdup,
          ← exec_qdupSeq tail _ rest hTail, ← hThenRun, ← exec_qdupSeq elseBody _ _ hElse,
          ← bind_assoc, ← qdupIf_eq hV, bind_assoc]
        dsimp only
        rw [execSeq_cons hw, execSeq_cons hw, execExpr, execExpr, execWord, hDup, execSeq_cons hw,
          execExpr, execWord, hDrop]
        rfl
    · rename_i es _ _ hOther
      obtain ⟨hHead, hTail⟩ := inserted_append.mp h
      rw [qdupSeq.eq_3 _ _ _ hOther, ansSeq.eq_4 _ _ _ _ _ hOther, ← exec_qdupSeq es _ rest hTail]
      dsimp only
      rw [execSeq_cons hw, exec_qdupExpr e n _ hHead]
end

end Meaning

/-! RECURSE changes the name of a reference only, which nothing looks at once it has a target. -/

/-- Every occurrence has a target. -/
def Known (r : Sema) (os : List (String × Span)) : Prop :=
  ∀ o ∈ os, (r.wordTargets.lookup o.2).isSome = true

section Recurse
variable {Obj World : Type} {V : Vm Obj World} {r : Sema} {copySelector : Bool} (target : String)

theorem known_append {os os' : List (String × Span)} :
    Known r (os ++ os') ↔ Known r os ∧ Known r os' := List.forall_mem_append

theorem execWord_known {name : String} {span : Span} (h : Known r [(name, span)]) :
    execWord V r target span = execWord V r name span := by
  obtain ⟨t, ht⟩ := Option.isSome_iff_exists.mp (h _ List.mem_cons_self)
  unfold execWord
  rw [ht]

mutual
theorem leaves_recurseExpr : ∀ e : Expr,
    exprLeaves (recurseExpr target e) = (exprLeaves e).map (recurseExpr target)
  | .wordRef name span => by
    show exprLeaves (recurseExpr target (.wordRef name span)) = [recurseExpr target (.wordRef name span)]
    rw [recurseExpr]
    split <;> rfl
  | .ifElse thenBody none _ => leaves_recurseSeq thenBody
  | .ifElse thenBody (some elseBody) _ => by
    rw [recurseExpr, exprLeaves, exprLeaves, leaves_recurseSeq thenBody, leaves_recurseSeq elseBody,
      List.map_append]
  | .beginUntil body _ => leaves_recurseSeq body
  | .beginAgain body _ => leaves_recurseSeq body
  | .doLoop _ body _ _ => leaves_recurseSeq body
  | .beginWhileRepeat pred body _ => by
    rw [recurseExpr, exprLeaves, exprLeaves, leaves_recurseSeq pred, leaves_recurseSeq body,
      List.map_append]
  | .caseOf arms none _ => leaves_recurseArms arms
  | .caseOf arms (some default) _ => by
    rw [recurseExpr, exprLeaves, exprLeaves, leaves_recurseArms arms, leaves_recurseSeq default,
      List.map_append]
  | .lit _ | .tick _ _ | .toValue _ _ | .see _ _ | .letForm _ _ | .locals _ _ => rfl

theorem leaves_recurseArms : ∀ arms : List (CaseArm Expr),
    armsLeaves (recurseArms target arms) = (armsLeaves arms).map (recurseExpr target)
  | [] => rfl
  | ⟨matchExpr, body, _⟩ :: arms => by
    rw [recurseArms, armsLeaves, armsLeaves, leaves_recurseSeq matchExpr, leaves_recurseSeq body,
      leaves_recurseArms arms, List.map_append, List.map_append]

theorem leaves_recurseSeq : ∀ es : List Expr,
    leaves (recurseSeq target es) = (leaves es).map (recurseExpr target)
  | [] => rfl
  | e :: es => by
    rw [recurseSeq, leaves, leaves, leaves_recurseExpr e, leaves_recurseSeq es, List.map_append]
end

theorem occurrences_recurseSeq (es : List Expr) :
    (occurrences (recurseSeq target es)).map Prod.snd = (occurrences es).map Prod.snd := by
  rw [occurrences_leaves, occurrences_leaves, leaves_recurseSeq, List.flatMap_map, List.map_flatMap,
    List.map_flatMap]
  congr 1
  funext e
  cases e with
  | wordRef name span =>
    rw [recurseExpr]
    split <;> rfl
  | ifElse thenBody elseBody span => cases elseBody <;> rfl
  | caseOf arms default span => cases default <;> rfl
  | _ => rfl

theorem known_recurse {es : List Expr} (h : Known r (occurrences (recurseSeq target es))) :
    Known r (occurrences es) := by
  intro o ho
  have hSpan : o.2 ∈ (occurrences (recurseSeq target es)).map Prod.snd := by
    rw [occurrences_recurseSeq]
    exact List.mem_map_of_mem ho
  obtain ⟨o', ho', hEq⟩ := List.mem_map.mp hSpan
  rw [← hEq]
  exact h o' ho'

variable (hw : Wide r)
include hw

mutual
theorem exec_recurseExpr : ∀ (e : Expr) (rest rest' : List Expr), Known r (exprOccurrences e) →
    execExpr V r (Rules.free copySelector) rest (recurseExpr target e) =
      execExpr V r (Rules.free copySelector) rest' e
  | .wordRef name span, rest, rest', h => by
    rw [recurseExpr]
    split
    · rw [execExpr, execExpr, execWord_known target h]
    · rw [execExpr, execExpr]
  | .ifElse thenBody none _, rest, rest', h => by
    rw [recurseExpr, execExpr, execExpr, exec_recurseSeq thenBody rest rest' h]
  | .ifElse thenBody (some elseBody) _, rest, rest', h => by
    obtain ⟨hThen, hElse⟩ := known_append.mp h
    rw [recurseExpr, execExpr, execExpr, exec_recurseSeq thenBody rest rest' hThen,
      exec_recurseSeq elseBody rest rest' hElse]
  | .beginUntil body _, rest, rest', h => by
    rw [recurseExpr, execExpr, execExpr, exec_recurseSeq body [] [] h]
    rfl
  | .beginAgain body _, rest, rest', h => by
    rw [recurseExpr, execExpr, execExpr, exec_recurseSeq body [] [] h]
    rfl
  | .beginWhileRepeat pred body _, rest, rest', h => by
    obtain ⟨hPred, hBody⟩ := known_append.mp h
    rw [recurseExpr, execExpr, execExpr, exec_recurseSeq pred [] [] hPred,
      exec_recurseSeq body [] [] hBody]
    rfl
  | .doLoop isQdo body loopKind _, rest, rest', h => by
    rw [recurseExpr, execExpr, execExpr, exec_recurseSeq body [] [] h]
    rfl
  | .caseOf arms none _, rest, rest', h => by
    rw [recurseExpr, execExpr, execExpr]
    exact exec_recurseArms arms rest rest' _ _ h rfl
  | .caseOf arms (some default) _, rest, rest', h => by
    obtain ⟨hArms, hDefault⟩ := known_append.mp h
    rw [recurseExpr, execExpr, execExpr]
    apply exec_recurseArms arms rest rest' _ _ hArms
    rw [exec_recurseSeq default rest rest' hDefault]
    rfl
  | .lit _, rest, rest', h => by rw [recurseExpr, execExpr, execExpr]; all_goals simp
  | .tick _ _, rest, rest', h => by rw [recurseExpr, execExpr, execExpr]; all_goals simp
  | .toValue _ _, rest, rest', h => by rw [recurseExpr, execExpr, execExpr]; all_goals simp
  | .see _ _, rest, rest', h => by rw [recurseExpr, execExpr, execExpr]; all_goals simp
  | .letForm _ _, rest, rest', h => by rw [recurseExpr, execExpr, execExpr]; all_goals simp
  | .locals _ _, rest, rest', h => by rw [recurseExpr, execExpr, execExpr]; all_goals simp

theorem exec_recurseArms : ∀ (arms : List (CaseArm Expr)) (rest rest' : List Expr)
    (base base' : Command Obj World PUnit), Known r (armsOccurrences arms) → base = base' →
    execArms V r (Rules.free copySelector) rest (recurseArms target arms) base =
      execArms V r (Rules.free copySelector) rest' arms base'
  | [], rest, rest', base, base', h, hBase => by rw [recurseArms, execArms, execArms, hBase]
  | ⟨matchExpr, body, _⟩ :: arms, rest, rest', base, base', h, hBase => by
    obtain ⟨hHead, hArms⟩ := known_append.mp h
    obtain ⟨hMatch, hBody⟩ := known_append.mp hHead
    rw [recurseArms, execArms, execArms, exec_recurseSeq matchExpr [] [] hMatch,
      exec_recurseSeq body rest rest' hBody, exec_recurseArms arms rest rest' base base' hArms hBase]

theorem exec_recurseSeq : ∀ (es : List Expr) (rest rest' : List Expr), Known r (occurrences es) →
    execSeq V r (Rules.free copySelector) rest (recurseSeq target es) =
      execSeq V r (Rules.free copySelector) rest' es
  | [], rest, rest', h => by rw [recurseSeq, execSeq, execSeq]
  | e :: es, rest, rest', h => by
    obtain ⟨hHead, hTail⟩ := known_append.mp h
    rw [recurseSeq, execSeq_cons hw, execSeq_cons hw, exec_recurseExpr e _ (es ++ rest') hHead,
      exec_recurseSeq es rest rest' hTail]
end

end Recurse

/-! The bodies of a program. -/

/-- A body in front of the pass, with the counter the pass reaches it with, and the definition that a
RECURSE in it names. -/
structure QdupBody where
  source : List Expr
  counter : Nat
  name : Option String

/-- The body as it is resolved and emitted. -/
def QdupBody.resolved (b : QdupBody) : List Expr :=
  match b.name with
  | none => (qdupSeq b.source b.counter).1
  | some name => recurseSeq name (qdupSeq b.source b.counter).1

def Item.qdupBodies : Item → Nat → List QdupBody
  | .definition d, n => [⟨d.body, n, some d.name⟩]
  | .topLevel exprs _, n => [⟨exprs, n, none⟩]
  | .constant c, n =>
    match c.value with
    | .computed exprs => [⟨exprs, n, none⟩]
    | _ => []
  | .template t, n => [⟨t.constructor, n, none⟩, ⟨t.doesBody, (qdupSeq t.constructor n).2, none⟩]
  | .value v, n => [⟨v.initial, n, none⟩]
  | .method m, n => [⟨m.body, n, none⟩]
  | _, _ => []

/-- The bodies of some items, with the counters in the order of the pass. -/
def qdupBodies : List Item → Nat → List QdupBody
  | [], _ => []
  | item :: items, n => Item.qdupBodies item n ++ qdupBodies items (item.lowerQdup n).2

theorem itemBodies_resolved (item : Item) (n : Nat) :
    (Item.qdupBodies item n).map QdupBody.resolved =
      ((item.lowerQdup n).1.lowerRecurse.resolvedBodies).map Prod.snd := by
  cases item with
  | constant c =>
    unfold Item.qdupBodies Item.lowerQdup
    cases hValue : c.value <;> simp [hValue, Item.lowerRecurse, Item.resolvedBodies, QdupBody.resolved]
  | _ => rfl

theorem qdupBodies_resolved (items : List Item) (n : Nat) :
    (qdupBodies items n).map QdupBody.resolved =
      (((lowerQdupItems items n).1.map Item.lowerRecurse).flatMap Item.resolvedBodies).map Prod.snd := by
  induction items generalizing n with
  | nil => rfl
  | cons item items ih =>
    rw [qdupBodies, List.map_append, itemBodies_resolved, ih]
    simp [lowerQdupItems]

/-- In a program that is accepted, the occurrences of each body have targets. -/
theorem qdupBodies_known {prog : Program} {items : List Item} {n : Nat} {sema : Sema}
    (hProg : prog.items = (lowerQdupItems items n).1.map Item.lowerRecurse)
    (h : ∀ p ∈ walkedPlaces prog, (sema.wordTargets.lookup p.span).isSome = true)
    {b : QdupBody} (hb : b ∈ qdupBodies items n) : Known sema (occurrences b.resolved) := by
  have hMem : b.resolved ∈ (prog.items.flatMap Item.resolvedBodies).map Prod.snd := by
    rw [hProg, ← qdupBodies_resolved]
    exact List.mem_map_of_mem hb
  obtain ⟨⟨locals, body⟩, hBody, hEq⟩ := List.mem_map.mp hMem
  intro o ho
  apply h ⟨locals, o.1, o.2⟩
  apply List.mem_flatMap.mpr
  refine ⟨_, hBody, List.mem_map.mpr ⟨o, ?_, rfl⟩⟩
  have hEq' : body = b.resolved := hEq
  rw [hEq']
  exact ho

/-- The words that the pass inserts are the stack words, and the body runs as ANS says of its source: in
the emitted code, and under the rules of the source with or without a copy of a CASE selector. -/
structure QdupKept (r : Sema) (b : QdupBody) : Prop where
  stackWords : Inserted r (seqInserted b.source b.counter)
  emitted : ∀ {Obj World : Type} (V : Vm Obj World), StackWords V →
    run V (emitExprs r b.resolved) = ansSeq V r true b.source
  meaning : ∀ {Obj World : Type} (V : Vm Obj World), StackWords V → ∀ copySelector,
    execSeq V r (Rules.free copySelector) [] b.resolved = ansSeq V r copySelector b.source

theorem qdupKept_iff {r : Sema} (hw : Wide r) {b : QdupBody} (hKnown : Known r (occurrences b.resolved)) :
    QdupKept r b ↔ Inserted r (seqInserted b.source b.counter) := by
  constructor
  · exact QdupKept.stackWords
  · intro h
    have hMeaning : ∀ {Obj World : Type} (V : Vm Obj World), StackWords V → ∀ copySelector,
        execSeq V r (Rules.free copySelector) [] b.resolved = ansSeq V r copySelector b.source := by
      intro Obj World V hV copySelector
      rw [← exec_qdupSeq hw hV b.source b.counter [] h]
      unfold QdupBody.resolved at hKnown ⊢
      cases hName : b.name with
      | none => rfl
      | some name =>
        rw [hName] at hKnown
        exact exec_recurseSeq name hw _ [] [] (known_recurse name hKnown)
    refine ⟨h, fun V hV => ?_, hMeaning⟩
    rw [run_emitExprs V r [] b.resolved]
    exact hMeaning V hV true

/-! The targets of the inserted words, by the names around them. -/

/-- The occurrence that is resolved last at the span of an inserted word is a name of the builtin that
the word means, and neither a local of its definition nor a user word. -/
def KeepsBuiltin (prior : PriorState) (prog : Program) (o : String × Span) : Prop :=
  ∃ q ∈ lastPlace prog o.2, lower q.name ∉ q.locals ∧
    Dict.contains (knownWords prior prog) (lower q.name) = false ∧
    builtinTable.lookup (lower q.name) = some (.builtin "kernel" o.1)

theorem lastAt_builtin {prior : PriorState} {prog : Program} {o : String × Span} :
    lastAt (knownWords prior prog) (knownValues prior prog) (walkedPlaces prog) o.2 =
      some (.builtin "kernel" o.1) ↔ KeepsBuiltin prior prog o := by
  show (lastPlace prog o.2).bind _ = _ ↔ _
  rw [Option.bind_eq_some_iff]
  refine exists_congr fun q => and_congr_right fun _ => ?_
  show Scope.target _ q.name = _ ↔ _
  unfold Scope.target
  by_cases hLocal : lower q.name ∈ q.locals
  · simp [hLocal]
  · by_cases hUser : Dict.contains (knownWords prior prog) (lower q.name) = true
    · simp [hLocal, hUser]
    · simp [hLocal, hUser]

/-! The compile. -/

section
variable (host : Host) (fs : FileSystem) (source : String) (ctx : CompileContext) (synth : Nat)

/-- The items of a source with its NEEDS files, its template instances being made. -/
def expandedItems : List Item :=
  (expandTemplates ⟨mergedItems host fs source ctx⟩ ctx.prior.templates).items

/-- In an accepted compile the pass keeps the ANS meaning of a body exactly when each `dup` and `drop`
that it inserts there still names the builtin. -/
theorem compile_qdupKept {sema : Sema} (h : (analyse host fs source ctx synth).result = .ok sema) :
    ∀ b ∈ qdupBodies (expandedItems host fs source ctx) synth,
      (QdupKept sema b ↔ ∀ o ∈ seqInserted b.source b.counter,
        KeepsBuiltin ctx.prior (preparedProgram host fs source ctx synth) o) := by
  intro b hb
  obtain ⟨hSome, hLookup⟩ := analyse_records host fs source ctx synth h
  have hSpans : ∀ p ∈ walkedPlaces (preparedProgram host fs source ctx synth),
      (sema.wordTargets.lookup p.span).isSome = true := by
    intro p hp
    obtain ⟨q, hqWalked, hq⟩ := lastPlace_of_walked hp
    show (sema.wordTargets.lookup p.span).isSome = true
    rw [hLookup]
    show ((lastPlace _ p.span).bind _).isSome = true
    rw [hq]
    exact hSome q hqWalked
  rw [qdupKept_iff (analyse_wide host fs h) (qdupBodies_known rfl hSpans hb)]
  unfold Inserted
  simp only [hLookup, lastAt_builtin]

end

theorem compile_qdupKept_oneWord :
    ∃ sema, (analyse noLet noFiles ": f ?dup if then ;" .new synthCounterStart).result = .ok sema ∧
      ∀ b ∈ qdupBodies (expandedItems noLet noFiles ": f ?dup if then ;" .new) synthCounterStart,
        QdupKept sema b := by
  let prog := preparedProgram noLet noFiles ": f ?dup if then ;" .new synthCounterStart
  have hOk : (analyse noLet noFiles ": f ?dup if then ;" .new synthCounterStart).result.isOk = true := by
    decide +kernel
  have hBuiltin : ∀ b ∈ qdupBodies (expandedItems noLet noFiles ": f ?dup if then ;" .new)
      synthCounterStart, ∀ o ∈ seqInserted b.source b.counter,
        ∃ q ∈ lastPlace prog o.2, lower q.name ∉ q.locals ∧
          Dict.contains (knownWords CompileContext.new.prior prog) (lower q.name) = false ∧
          builtinTable.lookup (lower q.name) = some (.builtin "kernel" o.1) := by
    decide +kernel
  cases h : (analyse noLet noFiles ": f ?dup if then ;" .new synthCounterStart).result with
  | error e =>
    rw [h] at hOk
    cases hOk
  | ok sema =>
    exact ⟨sema, rfl, fun b hb =>
      (compile_qdupKept noLet noFiles ": f ?dup if then ;" .new synthCounterStart h b hb).mpr
        (hBuiltin b hb)⟩

/-- Where the user has a word `drop`, the pass inserts that one. -/
theorem compile_not_qdupKept :
    ¬ ∀ (source : String) (sema : Sema),
      (analyse noLet noFiles source .new synthCounterStart).result = .ok sema →
      ∀ b ∈ qdupBodies (expandedItems noLet noFiles source .new) synthCounterStart,
        QdupKept sema b := by
  intro hAll
  let source := ": drop ; : f ?dup if then ;"
  have hTaken : (analyse noLet noFiles source .new synthCounterStart).result.toOption.map
      (fun sema => (qdupBodies (expandedItems noLet noFiles source .new) synthCounterStart).all
        fun b => (seqInserted b.source b.counter).all fun o =>
          decide (sema.wordTargets.lookup o.2 = some (.builtin "kernel" o.1))) = some false := by
    decide +kernel
  cases h : (analyse noLet noFiles source .new synthCounterStart).result with
  | error e =>
    rw [h] at hTaken
    cases hTaken
  | ok sema =>
    rw [h] at hTaken
    apply Bool.eq_false_iff.mp (Option.some.inj hTaken)
    simp only [List.all_eq_true, decide_eq_true_eq]
    intro b hb o ho
    exact (hAll source sema h b hb).stackWords o ho

end FactorForth.Correctness
