import FactorForth.Correctness.LexicalScope
import FactorForth.Correctness.QdupMeaning

/-! RECURSE. The pass before resolution writes the name of the definition in its place, and the
resolver binds that name like any other. -/

namespace FactorForth.Correctness
open FactorForth.Library FactorForth.Compiler

def isRecurse : Expr → Bool
  | .wordRef name _ => eqIgnoreAsciiCase name "recurse"
  | _ => false

/-- The RECURSEs of a body, at any depth. -/
def recurses (body : List Expr) : List Expr := (leaves body).filter isRecurse

section Pass
variable {target : String}

theorem recurseExpr_recurse {e : Expr} (h : isRecurse e = true) :
    recurseExpr target e = .wordRef target e.span := by
  cases e with
  | wordRef name span =>
    have hName : eqIgnoreAsciiCase name "recurse" = true := h
    rw [recurseExpr, if_pos hName]
    rfl
  | _ => cases h

/-- Each RECURSE becomes a reference to the definition. -/
theorem occurrence_of_recurse {body : List Expr} {e : Expr} (h : e ∈ recurses body) :
    (target, e.span) ∈ occurrences (recurseSeq target body) := by
  obtain ⟨hLeaf, hRecurse⟩ := List.mem_filter.mp h
  rw [occurrences_leaves, leaves_recurseSeq]
  apply List.mem_flatMap.mpr
  refine ⟨_, List.mem_map_of_mem hLeaf, ?_⟩
  rw [recurseExpr_recurse hRecurse]
  exact List.mem_singleton_self _

theorem isRecurse_recurseExpr (hTarget : eqIgnoreAsciiCase target "recurse" = false) (e : Expr) :
    isRecurse (recurseExpr target e) = false := by
  cases e with
  | wordRef name span =>
    rw [recurseExpr]
    split
    · exact hTarget
    · rename_i hName
      simpa [isRecurse] using hName
  | ifElse thenBody elseBody span => cases elseBody <;> rfl
  | caseOf arms default span => cases default <;> rfl
  | _ => rfl

/-- The EXIT pass brings no RECURSE back. -/
theorem recurses_lowered (hTarget : eqIgnoreAsciiCase target "recurse" = false) (body : List Expr)
    (t : Dict Span Target) : recurses (lowerBody (recurseSeq target body) t) = [] := by
  apply List.filter_eq_nil_iff.mpr
  intro e he
  have hLeaf := leaves_lowerBody _ e he
  rw [leaves_recurseSeq] at hLeaf
  obtain ⟨e', -, rfl⟩ := List.mem_map.mp hLeaf
  simp [isRecurse_recurseExpr hTarget]

end Pass

/-! The word that the resolver finds. -/

def Target.isUser : Target → Bool
  | .userDefined _ => true
  | _ => false

theorem builtin_not_user {name : String} {t : Target} (h : builtinTable.lookup name = some t) :
    Target.isUser t = false := by
  have hAll : builtinTable.all (fun p => !Target.isUser p.2) = true := by decide +kernel
  have hEntry := List.all_eq_true.mp hAll _ (Dict.mem_of_lookup h)
  simpa using hEntry

theorem target_user_iff {sc : Scope} {name factorName : String} :
    sc.target name = some (.userDefined factorName) ↔
      lower name ∉ sc.locals ∧ Dict.contains sc.userWords (lower name) = true ∧
        mangled name = factorName := by
  unfold Scope.target mangled
  by_cases hLocal : lower name ∈ sc.locals
  · simp [hLocal]
  · by_cases hUser : Dict.contains sc.userWords (lower name) = true
    · simp [hLocal, hUser]
    · have hBuiltin : builtinTable.lookup (lower name) ≠ some (.userDefined factorName) := by
        intro h
        cases builtin_not_user h
      simp [hLocal, hUser, hBuiltin]

/-- The reference that is resolved last at a span is, by its name and the locals around it, no local
but a user word whose Factor word is that of `name`. -/
def NamesWord (prior : PriorState) (prog : Program) (name : String) (span : Span) : Prop :=
  ∃ q ∈ lastPlace prog span, lower q.name ∉ q.locals ∧
    Dict.contains (knownWords prior prog) (lower q.name) = true ∧ mangled q.name = mangled name

theorem lastAt_user {prior : PriorState} {prog : Program} {name : String} {span : Span} :
    lastAt (knownWords prior prog) (knownValues prior prog) (walkedPlaces prog) span =
      some (.userDefined (mangled name)) ↔ NamesWord prior prog name span := by
  show (lastPlace prog span).bind _ = _ ↔ _
  rw [Option.bind_eq_some_iff]
  exact exists_congr fun q => and_congr_right fun _ => target_user_iff

/-! The locals of a body do not change in the pass. -/

def leafLocals : Expr → List String
  | .locals names _ => localNames names
  | _ => []

mutual
theorem exprLocals_leaves : ∀ e : Expr, exprLocals e = (exprLeaves e).flatMap leafLocals
  | .ifElse thenBody none _ => bodyLocals_leaves thenBody
  | .ifElse thenBody (some elseBody) _ => by
    rw [exprLocals, exprLeaves, List.flatMap_append, bodyLocals_leaves thenBody,
      bodyLocals_leaves elseBody]
  | .beginUntil body _ => bodyLocals_leaves body
  | .beginAgain body _ => bodyLocals_leaves body
  | .doLoop _ body _ _ => bodyLocals_leaves body
  | .beginWhileRepeat pred body _ => by
    rw [exprLocals, exprLeaves, List.flatMap_append, bodyLocals_leaves pred, bodyLocals_leaves body]
  | .caseOf arms none _ => armsLocals_leaves arms
  | .caseOf arms (some default) _ => by
    rw [exprLocals, exprLeaves, List.flatMap_append, armsLocals_leaves arms,
      bodyLocals_leaves default]
  | .lit _ | .wordRef _ _ | .tick _ _ | .toValue _ _ | .see _ _ | .letForm _ _ => rfl
  | .locals names _ => (List.append_nil _).symm

theorem armsLocals_leaves : ∀ arms : List (CaseArm Expr),
    armsLocals arms = (armsLeaves arms).flatMap leafLocals
  | [] => rfl
  | ⟨matchExpr, body, _⟩ :: arms => by
    rw [armsLocals, armsLeaves, List.flatMap_append, List.flatMap_append, bodyLocals_leaves matchExpr,
      bodyLocals_leaves body, armsLocals_leaves arms]

theorem bodyLocals_leaves : ∀ es : List Expr, collectBodyLocals es = (leaves es).flatMap leafLocals
  | [] => rfl
  | e :: es => by
    rw [collectBodyLocals, leaves, List.flatMap_append, exprLocals_leaves e, bodyLocals_leaves es]
end

theorem bodyLocals_recurse (target : String) (body : List Expr) :
    collectBodyLocals (recurseSeq target body) = collectBodyLocals body := by
  rw [bodyLocals_leaves, bodyLocals_leaves, leaves_recurseSeq, List.flatMap_map]
  congr 1
  funext e
  cases e with
  | wordRef name span =>
    rw [recurseExpr]
    split <;> rfl
  | ifElse thenBody elseBody span => cases elseBody <;> rfl
  | caseOf arms default span => cases default <;> rfl
  | _ => rfl

/-! The compile. -/

/-- Every RECURSE of a definition is written as a call of its own Factor word, and none is left in the
body that is written. A definition named `recurse` calls itself by that name. -/
structure CallsItself (sema : Sema) (d : Definition) : Prop where
  calls : ∀ e ∈ recurses d.body, emitExpr sema (recurseExpr d.name e) = [userTok (mangled d.name)]
  left : eqIgnoreAsciiCase d.name "recurse" = true ∨
    recurses (lowerBody (recurseSeq d.name d.body) sema.wordTargets) = []

/-- A word named `recurse` that is written is one that the user has declared. -/
def RecurseDeclared (prior : PriorState) (prog : Program) (sema : Sema) : Prop :=
  ∀ item ∈ prog.items, ∀ p ∈ (Item.emittedBodies sema.wordTargets item).flatMap bodyPlaces,
    eqIgnoreAsciiCase p.name "recurse" = true →
      "recurse" ∈ p.locals ∨ Dict.contains (knownWords prior prog) "recurse" = true

/-- Where a RECURSE of a definition is resolved. -/
def recursePlace (d : Definition) (e : Expr) : Place :=
  ⟨localNames d.locals ++ collectBodyLocals d.body, d.name, e.span⟩

section
variable (host : Host) (fs : FileSystem) (source : String) (ctx : CompileContext) (synth : Nat)

/-- The items of a compile as the RECURSE pass gets them. -/
def unboundItems : List Item := (lowerQdupItems (expandedItems host fs source ctx) synth).1

theorem recursePlace_walked {d : Definition}
    (hd : .definition d ∈ unboundItems host fs source ctx synth) {e : Expr} (he : e ∈ recurses d.body) :
    recursePlace d e ∈ walkedPlaces (preparedProgram host fs source ctx synth) := by
  have hItem : Item.lowerRecurse (.definition d) ∈
      (preparedProgram host fs source ctx synth).items := List.mem_map_of_mem hd
  apply List.mem_flatMap.mpr
  refine ⟨_, List.mem_flatMap.mpr ⟨_, hItem, List.mem_singleton_self _⟩, ?_⟩
  refine List.mem_map.mpr ⟨_, @occurrence_of_recurse d.name _ _ he, ?_⟩
  rw [recursePlace, bodyLocals_recurse]

/-- A RECURSE that shares its span with no later reference names the word unless that is a local. -/
theorem namesWord_own {sema : Sema} (h : (analyse host fs source ctx synth).result = .ok sema)
    {d : Definition} (hd : .definition d ∈ unboundItems host fs source ctx synth) {e : Expr}
    (hLast : lastPlace (preparedProgram host fs source ctx synth) e.span = some (recursePlace d e)) :
    NamesWord ctx.prior (preparedProgram host fs source ctx synth) d.name e.span ↔
      lower d.name ∉ localNames d.locals ++ collectBodyLocals d.body := by
  have hKnown : Dict.contains (knownWords ctx.prior (preparedProgram host fs source ctx synth))
      (lower d.name) = true := by
    obtain ⟨built, docs, synth', hBuild, rfl⟩ := analyse_build host fs source ctx synth h
    obtain ⟨words, targets, hRegister, -, -⟩ := build_ok hBuild
    unfold knownWords preparedProgram
    rw [hRegister, Dict.contains_merge, Bool.or_eq_true]
    apply Or.inl
    apply (contains_register hRegister _).mpr
    apply Or.inr
    have hItem : Item.lowerRecurse (.definition d) ∈
        (prepare ⟨mergedItems host fs source ctx⟩ ctx.prior.templates synth).1.1.items :=
      List.mem_map_of_mem hd
    exact List.mem_map.mpr ⟨(d.name, d.nameSpan),
      List.mem_flatMap.mpr ⟨_, hItem, List.mem_singleton_self _⟩, rfl⟩
  unfold NamesWord
  rw [hLast]
  constructor
  · rintro ⟨q, hq, hLocal, -, -⟩
    obtain rfl := Option.some.inj hq
    exact hLocal
  · intro hLocal
    exact ⟨recursePlace d e, rfl, hLocal, hKnown, rfl⟩

/-- In an accepted compile a definition calls itself exactly when, at each of its RECURSEs, the
reference that is resolved last there names its word; no other RECURSE is written either. -/
theorem compile_callsItself {sema : Sema} (h : (analyse host fs source ctx synth).result = .ok sema) :
    (∀ d, .definition d ∈ unboundItems host fs source ctx synth →
      (CallsItself sema d ↔ ∀ e ∈ recurses d.body,
        NamesWord ctx.prior (preparedProgram host fs source ctx synth) d.name e.span)) ∧
      RecurseDeclared ctx.prior (preparedProgram host fs source ctx synth) sema := by
  obtain ⟨hSome, hLookup⟩ := analyse_records host fs source ctx synth h
  constructor
  · intro d hd
    have hEmit : ∀ e ∈ recurses d.body,
        (emitExpr sema (recurseExpr d.name e) = [userTok (mangled d.name)] ↔
          NamesWord ctx.prior (preparedProgram host fs source ctx synth) d.name e.span) := by
      intro e he
      rw [recurseExpr_recurse (List.mem_filter.mp he).2, emitExpr, emitWord, hLookup, ← lastAt_user]
      cases lastAt (knownWords ctx.prior (preparedProgram host fs source ctx synth))
          (knownValues ctx.prior (preparedProgram host fs source ctx synth))
          (walkedPlaces (preparedProgram host fs source ctx synth)) e.span with
      | none => simp [userTok]
      | some t => simp [userTok]
    constructor
    · intro hCalls e he
      exact (hEmit e he).mp (hCalls.calls e he)
    · intro hNames
      refine ⟨fun e he => (hEmit e he).mpr (hNames e he), ?_⟩
      by_cases hOwn : eqIgnoreAsciiCase d.name "recurse" = true
      · exact .inl hOwn
      · exact .inr (recurses_lowered (by simpa using hOwn) _ _)
  · intro item hItem p hp hName
    have hWalked : p ∈ walkedPlaces (preparedProgram host fs source ctx synth) := by
      obtain ⟨b, hb, hp⟩ := List.mem_flatMap.mp (emittedBodies_places p hp)
      exact List.mem_flatMap.mpr ⟨b, List.mem_flatMap.mpr ⟨item, hItem, hb⟩, hp⟩
    have hLower : lower p.name = "recurse" := by
      have hEq : lower p.name = lower "recurse" := by simpa [eqIgnoreAsciiCase] using hName
      rw [hEq]
      decide +kernel
    have hTarget := hSome p hWalked
    unfold ownTarget Place.own Scope.target at hTarget
    rw [hLower] at hTarget
    -- the table of builtins has no RECURSE
    have hBuiltin : builtinTable.lookup "recurse" = none := by decide +kernel
    by_contra hNone
    obtain ⟨hLocal, hUser⟩ := not_or.mp hNone
    simp [hLocal, hUser, hBuiltin] at hTarget

end

theorem compile_callsItself_countdown :
    ∃ sema, (analyse noLet noFiles ": f ( n -- n ) dup if 1 - recurse then ;" .new
        synthCounterStart).result = .ok sema ∧
      ∀ d, .definition d ∈ unboundItems noLet noFiles ": f ( n -- n ) dup if 1 - recurse then ;" .new
        synthCounterStart → CallsItself sema d := by
  let source := ": f ( n -- n ) dup if 1 - recurse then ;"
  let prog := preparedProgram noLet noFiles source .new synthCounterStart
  have hOk : (analyse noLet noFiles source .new synthCounterStart).result.isOk = true := by
    decide +kernel
  have hNames : ∀ d ∈ definitions (unboundItems noLet noFiles source .new synthCounterStart),
      ∀ e ∈ recurses d.body, ∃ q ∈ lastPlace prog e.span, lower q.name ∉ q.locals ∧
          Dict.contains (knownWords CompileContext.new.prior prog) (lower q.name) = true ∧
          mangled q.name = mangled d.name := by
    decide +kernel
  cases h : (analyse noLet noFiles source .new synthCounterStart).result with
  | error e =>
    rw [h] at hOk
    cases hOk
  | ok sema =>
    refine ⟨sema, rfl, fun d hd => ?_⟩
    exact ((compile_callsItself noLet noFiles source .new synthCounterStart h).1 d hd).mpr
      (hNames d (mem_definitions.mpr hd))

/-- A definition with a local of its own name pushes the local. -/
theorem compile_not_callsItself :
    ¬ ∀ (source : String) (sema : Sema),
      (analyse noLet noFiles source .new synthCounterStart).result = .ok sema →
      ∀ d, .definition d ∈ unboundItems noLet noFiles source .new synthCounterStart →
        CallsItself sema d := by
  intro hAll
  let source := ": f ( n -- n ) {: f :} recurse ;"
  have hTaken : (analyse noLet noFiles source .new synthCounterStart).result.toOption.map
      (fun sema => (definitions (unboundItems noLet noFiles source .new synthCounterStart)).all fun d =>
        (recurses d.body).all fun e =>
          decide (sema.wordTargets.lookup e.span = some (.userDefined (mangled d.name)))) = some false := by
    decide +kernel
  cases h : (analyse noLet noFiles source .new synthCounterStart).result with
  | error e =>
    rw [h] at hTaken
    cases hTaken
  | ok sema =>
    rw [h] at hTaken
    apply Bool.eq_false_iff.mp (Option.some.inj hTaken)
    rw [List.all_eq_true]
    intro d hd
    simp only [List.all_eq_true, decide_eq_true_eq]
    intro e he
    have hCall := (hAll source sema h d (mem_definitions.mp hd)).calls e he
    rw [recurseExpr_recurse (List.mem_filter.mp he).2, emitExpr, emitWord] at hCall
    cases hLookup : sema.wordTargets.lookup e.span with
    | none =>
      rw [hLookup] at hCall
      cases List.head_eq_of_cons_eq hCall
    | some t =>
      rw [hLookup] at hCall
      rw [Tok.word.inj (List.head_eq_of_cons_eq hCall)]

end FactorForth.Correctness
