import FactorForth.Correctness.Hygiene
import FactorForth.Correctness.LexicalScope

/-! How locals are spelt. A binding is written with each `.` of its name turned into `_`, a reference
with the name as the resolver has it, and some names of a header are made up. -/

namespace FactorForth.Correctness
open FactorForth.Library FactorForth.Compiler FactorForth.Semantics

/-! The binding tokens and the references of an emitted form. -/

mutual
/-- Where a token binds names, in the order in which they are written; a discard has no name yet. -/
def tokSites : Tok → List (Option String)
  | .bind n => [n]
  | .quot q => sites q
  | _ => []

def sites : List Tok → List (Option String)
  | [] => []
  | t :: ts => tokSites t ++ sites ts
end

/-- The binding sites of a form, its head first. -/
def Line.sites : Line → List (Option String)
  | .colon _ _ code _ => Correctness.sites code
  | .localsColon _ inputs _ code => inputs ++ Correctness.sites code
  | .method _ _ code => Correctness.sites code
  | _ => []

def localName? : Target → Option String
  | .local_ n => some n
  | _ => none

/-- The tokens of a form that refer to locals. -/
def Line.localRefs : Line → List String
  | .colon _ _ code _ => toksPicked localName? code
  | .localsColon _ _ _ code => toksPicked localName? code
  | .method _ _ code => toksPicked localName? code
  | _ => []

/-- The names in the header of a form. -/
def Line.header (withInputs : Bool) : Line → List String
  | .localsColon _ inputs outputs _ => (if withInputs then inputs.filterMap id else []) ++ outputs
  | _ => []

/-- The tokens that bind, each with what it was written for. -/
def bindingTokens (named : List (String × Binder)) (line : Line) : List (String × Binder) :=
  List.zipWith (fun s b => (s.getD b.1, b.2)) (Line.sites line) named

/-- Each reference to a local is spelt as the binding of that local, bindings of two locals are spelt
apart, and none is spelt like a name that was made up for the same form: a discard, or one of
`header`. -/
structure SpeltAlike (named : List (String × Binder)) (header : List String) (line : Line) : Prop where
  bound : ∀ m ∈ Line.localRefs line, ∃ s, (s, Binder.local_ m) ∈ bindingTokens named line
  spelt : ∀ m ∈ Line.localRefs line, ∀ s, (s, Binder.local_ m) ∈ bindingTokens named line → s = m
  distinct : ∀ s m m', (s, Binder.local_ m) ∈ bindingTokens named line →
    (s, Binder.local_ m') ∈ bindingTokens named line → m = m'
  fresh : ∀ s m, (s, Binder.local_ m) ∈ bindingTokens named line →
    s ∉ header ∧ (s, Binder.discard) ∉ bindingTokens named line

/-! Names without their dots. -/

def underscore (c : Char) : Char := if c = '.' then '_' else c

def underscored (s : String) : String := String.ofList (s.toList.map underscore)

/-- Two names that differ at most in where the one has `.` and the other `_`. -/
def DotAlike (a b : String) : Prop :=
  List.Forall₂ (fun c d => c = d ∨ (c ∈ ['.', '_'] ∧ d ∈ ['.', '_'])) a.toList b.toList

theorem underscore_eq_iff (c d : Char) :
    underscore c = underscore d ↔ c = d ∨ (c ∈ ['.', '_'] ∧ d ∈ ['.', '_']) := by
  unfold underscore
  by_cases hc : c = '.' <;> by_cases hd : d = '.' <;> simp [hc, hd] <;> grind

theorem underscored_eq_iff (a b : String) : underscored a = underscored b ↔ DotAlike a b := by
  unfold underscored DotAlike
  rw [String.ofList_inj, ← List.forall₂_eq_eq_eq, List.forall₂_map_left_iff, List.forall₂_map_right_iff]
  simp only [underscore_eq_iff]

theorem underscored_no_dot (s : String) : '.' ∉ (underscored s).toList := by
  unfold underscored
  rw [String.toList_ofList, List.mem_map]
  rintro ⟨c, -, hc⟩
  unfold underscore at hc
  split at hc
  · cases hc
  · contradiction

theorem underscored_eq_self (s : String) : underscored s = s ↔ '.' ∉ s.toList := by
  constructor
  · intro h
    rw [← h]
    exact underscored_no_dot s
  · intro h
    have hMap : s.toList.map underscore = s.toList := by
      conv_rhs => rw [← List.map_id s.toList]
      apply List.map_congr_left
      intro c hc
      apply if_neg
      rintro rfl
      exact h hc
    rw [underscored, hMap, String.ofList_toList]

theorem bindingName_of_ne {name : String} (h : name ≠ "_") :
    bindingName name = some (underscored (lower name)) := if_neg h

/-! The binding tokens of written locals. -/

/-- The fresh names of the discards among some locals. -/
def discardNames (n : Nat) (ls : List LocalDecl) : List String :=
  (List.range (discards ls)).map fun k => discardName (n + k)

theorem mem_written_local (n : Nat) (ls : List LocalDecl) (s m : String) :
    (s, Binder.local_ m) ∈ written n ls ↔ m ∈ localNames ls ∧ s = underscored m := by
  induction ls generalizing n with
  | nil => simp [written, localNames]
  | cons l ls ih =>
    by_cases hName : l.name = "_"
    · have hNone : bindingName l.name = none := if_pos hName
      have hLocals : localNames (l :: ls) = localNames ls := by simp [localNames, hName]
      rw [written, hNone, hLocals, ← ih (n + 1)]
      simp
    · have hLocals : localNames (l :: ls) = lower l.name :: localNames ls := by
        simp [localNames, hName]
      rw [written, bindingName_of_ne hName, hLocals]
      simp only [List.mem_cons, Prod.mk.injEq, Binder.local_.injEq, ih]
      grind

theorem mem_written_discard (n : Nat) (ls : List LocalDecl) (s : String) :
    (s, Binder.discard) ∈ written n ls ↔ s ∈ discardNames n ls := by
  induction ls generalizing n with
  | nil => simp [written, discardNames, discards]
  | cons l ls ih =>
    rw [written]
    cases hName : bindingName l.name with
    | none =>
      have hCount : discards (l :: ls) = discards ls + 1 := by simp [discards, hName]
      have hNames : discardNames n (l :: ls) = discardName n :: discardNames (n + 1) ls := by
        unfold discardNames
        rw [hCount, List.range_succ_eq_map, List.map_cons, List.map_map]
        congr 1
        apply List.map_congr_left
        intro k _
        simp [Nat.add_comm, Nat.add_left_comm]
      rw [hNames]
      simp [ih]
    | some text =>
      have hCount : discards (l :: ls) = discards ls := by simp [discards, hName]
      have hNames : discardNames n (l :: ls) = discardNames n ls := by
        unfold discardNames
        rw [hCount]
      rw [hNames]
      simp [ih]

/-- What the locals of a form must keep to: the form refers to declared names without dots only, no two
names differ in dots alone, and no name is, without its dots, one that was made up. -/
structure NamesApart (ls : List LocalDecl) (refs madeUp : List String) : Prop where
  declared : ∀ m ∈ refs, m ∈ localNames ls ∧ '.' ∉ m.toList
  distinct : ∀ a ∈ localNames ls, ∀ b ∈ localNames ls, DotAlike a b → a = b
  fresh : ∀ a ∈ localNames ls, underscored a ∉ madeUp

/-- A form whose bindings are made up ones first and then the written locals. -/
theorem spelt_iff {named : List (String × Binder)} {header refs madeUp : List String} {line : Line}
    (pre : List (String × Binder)) {n : Nat} {ls : List LocalDecl}
    (hTokens : bindingTokens named line = pre ++ written n ls)
    (hLocal : ∀ b ∈ pre, ∀ m, b.2 ≠ Binder.local_ m)
    (hDiscard : ∀ s, (s, Binder.discard) ∈ pre → '.' ∈ s.toList)
    (hHeader : localNames ls ≠ [] → ∀ s, '.' ∉ s.toList → (s ∈ header ↔ s ∈ madeUp))
    (hRefs : ∀ m, m ∈ Line.localRefs line ↔ m ∈ refs) :
    SpeltAlike named header line ↔ NamesApart ls refs (madeUp ++ discardNames n ls) := by
  have hMem : ∀ s m, (s, Binder.local_ m) ∈ bindingTokens named line ↔
      m ∈ localNames ls ∧ s = underscored m := by
    intro s m
    rw [hTokens, List.mem_append, mem_written_local]
    constructor
    · rintro (hPre | hIn)
      · exact absurd rfl (hLocal _ hPre m)
      · exact hIn
    · exact .inr
  have hFresh : ∀ a, a ∈ localNames ls →
      ((underscored a ∉ header ∧ (underscored a, Binder.discard) ∉ bindingTokens named line) ↔
        underscored a ∉ madeUp ++ discardNames n ls) := by
    intro a ha
    have hNoDot := underscored_no_dot a
    have hPre : (underscored a, Binder.discard) ∉ pre := fun hIn => hNoDot (hDiscard _ hIn)
    rw [hTokens, List.mem_append, mem_written_discard, hHeader (List.ne_nil_of_mem ha) _ hNoDot,
      List.mem_append]
    grind
  constructor
  · intro h
    refine ⟨fun m hm => ?_, fun a ha b hb hAlike => ?_, fun a ha => ?_⟩
    · rw [← hRefs] at hm
      obtain ⟨s, hs⟩ := h.bound m hm
      have hSelf := h.spelt m hm s hs
      obtain ⟨hIn, hText⟩ := (hMem s m).mp hs
      exact ⟨hIn, (underscored_eq_self m).mp (hText.symm.trans hSelf)⟩
    · apply h.distinct (underscored a) a b ((hMem _ _).mpr ⟨ha, rfl⟩)
      exact (hMem _ _).mpr ⟨hb, (underscored_eq_iff a b).mpr hAlike⟩
    · exact (hFresh a ha).mp (h.fresh _ a ((hMem _ _).mpr ⟨ha, rfl⟩))
  · intro h
    refine ⟨fun m hm => ?_, fun m hm s hs => ?_, fun s m m' hs hs' => ?_, fun s m hs => ?_⟩
    · obtain ⟨hIn, -⟩ := h.declared m ((hRefs m).mp hm)
      exact ⟨underscored m, (hMem _ _).mpr ⟨hIn, rfl⟩⟩
    · obtain ⟨-, hNoDot⟩ := h.declared m ((hRefs m).mp hm)
      obtain ⟨-, hText⟩ := (hMem s m).mp hs
      rw [hText, (underscored_eq_self m).mpr hNoDot]
    · obtain ⟨hIn, hText⟩ := (hMem s m).mp hs
      obtain ⟨hIn', hText'⟩ := (hMem s m').mp hs'
      exact h.distinct m hIn m' hIn' ((underscored_eq_iff m m').mp (hText.symm.trans hText'))
    · obtain ⟨hIn, rfl⟩ := (hMem s m).mp hs
      exact (hFresh m hIn).mpr (h.fresh m hIn)

/-! The sites of emitted code. -/

theorem sites_append (xs ys : List Tok) : sites (xs ++ ys) = sites xs ++ sites ys := by
  induction xs with
  | nil => rfl
  | cons x xs ih => rw [List.cons_append, sites, ih, sites, List.append_assoc]

def siteOf (l : LocalDecl) : Option String := bindingName l.name

theorem sites_emitLocals (names : List LocalDecl) :
    sites (emitLocals names) = names.reverse.map siteOf := by
  rw [emitLocals]
  induction names.reverse with
  | nil => rfl
  | cons l ls ih =>
    rw [List.map_cons, sites, ih]
    rfl

theorem sites_nameToks (names : List String) : sites (nameToks names) = [] := by
  induction names with
  | nil => rfl
  | cons n ns ih => exact ih

section Emitted
variable {r : Sema} (hw : Wide r)
include hw

mutual
theorem sites_emitExpr : ∀ e : Expr, sites (emitExpr r e) = (exprBinders e).map siteOf
  | .lit l => by
    rw [emitExpr]
    cases l with
    | str value kind span => cases kind <;> rfl
    | _ => rfl
  | .wordRef name span => by
    rw [emitExpr, emitWord]
    split <;> rfl
  | .tick name span => by
    rw [emitExpr, emitWord]
    split <;> rfl
  | .ifElse thenBody none _ => by
    simp [emitExpr, sites, tokSites, exprBinders, sites_emitExprs thenBody]
  | .ifElse thenBody (some elseBody) _ => by
    simp [emitExpr, sites, tokSites, exprBinders, sites_emitExprs thenBody, sites_emitExprs elseBody]
  | .beginUntil body _ => by
    simp [emitExpr, sites, tokSites, sites_append, exprBinders, sites_emitExprs body]
  | .beginAgain body _ => by
    simp [emitExpr, sites, tokSites, sites_append, exprBinders, sites_emitExprs body]
  | .beginWhileRepeat pred body _ => by
    simp [emitExpr, sites, tokSites, sites_append, exprBinders, sites_emitExprs pred,
      sites_emitExprs body]
  | .doLoop isQdo body loopKind _ => by
    have hStep : sites (if loopKind = .plus1 then [Tok.int 1] else []) = [] := by
      split <;> rfl
    simp [emitExpr, sites, tokSites, sites_append, hStep, exprBinders, sites_emitExprs body]
  | .caseOf arms none _ => by
    rw [emitExpr, sites_emitCaseChain arms, exprBinders]
    simp [sites, tokSites]
  | .caseOf arms (some default) _ => by
    rw [emitExpr, sites_emitCaseChain arms, exprBinders]
    simp [sites, tokSites, sites_append, sites_emitExprs default]
  | .toValue _ _ => by
    rw [emitExpr]
    rfl
  | .see _ _ => by
    rw [emitExpr]
    rfl
  | .letForm _ _ => by
    rw [emitExpr]
    rfl
  | .locals names _ => by
    rw [emitExpr, sites_emitLocals, exprBinders]

theorem sites_emitCaseChain : ∀ (arms : List (CaseArm Expr)) (base : List Tok),
    sites (emitCaseChain r arms base) = (armsBinders arms).map siteOf ++ sites base
  | [], base => by simp [emitCaseChain, armsBinders]
  | ⟨matchExpr, body, _⟩ :: arms, base => by
    simp [emitCaseChain, sites, tokSites, sites_append, armsBinders, sites_emitExprs matchExpr,
      sites_emitExprs body, sites_emitCaseChain arms base]

theorem sites_emitExprs : ∀ es : List Expr, sites (emitExprs r es) = (bodyBinders es).map siteOf
  | [] => by rw [emitExprs, bodyBinders]; rfl
  | e :: es => by
    rw [emitExprs_cons hw, sites_append, sites_emitExpr e, sites_emitExprs es, bodyBinders,
      List.map_append]
end

theorem sites_emitBody (body : List Expr) : sites (emitBody r body) = (bodyBinders body).map siteOf := by
  unfold emitBody
  split
  · simp only [sites, tokSites, List.append_nil]
    exact sites_emitExprs hw body
  · exact sites_emitExprs hw body

end Emitted

mutual
/-- A body without a block binds nothing. -/
theorem exprBinders_nil : ∀ e : Expr, exprUsesLocals e = false → exprBinders e = []
  | .locals _ _, h => by cases h
  | .ifElse thenBody none _, h => bodyBinders_nil thenBody h
  | .ifElse thenBody (some elseBody) _, h => by
    obtain ⟨hThen, hElse⟩ := Bool.or_eq_false_iff.mp h
    rw [exprBinders, bodyBinders_nil thenBody hThen, bodyBinders_nil elseBody hElse, List.append_nil]
  | .beginUntil body _, h => bodyBinders_nil body h
  | .beginAgain body _, h => bodyBinders_nil body h
  | .doLoop _ body _ _, h => bodyBinders_nil body h
  | .beginWhileRepeat pred body _, h => by
    obtain ⟨hPred, hBody⟩ := Bool.or_eq_false_iff.mp h
    rw [exprBinders, bodyBinders_nil pred hPred, bodyBinders_nil body hBody, List.append_nil]
  | .caseOf arms none _, h => armsBinders_nil arms h
  | .caseOf arms (some default) _, h => by
    obtain ⟨hArms, hDefault⟩ := Bool.or_eq_false_iff.mp h
    rw [exprBinders, armsBinders_nil arms hArms, bodyBinders_nil default hDefault, List.append_nil]
  | .lit _, _ | .wordRef _ _, _ | .tick _ _, _ | .toValue _ _, _ | .see _ _, _
  | .letForm _ _, _ => rfl

theorem armsBinders_nil : ∀ arms : List (CaseArm Expr), armsUseLocals arms = false →
    armsBinders arms = []
  | [], _ => rfl
  | ⟨matchExpr, body, _⟩ :: arms, h => by
    obtain ⟨hHead, hArms⟩ := Bool.or_eq_false_iff.mp h
    obtain ⟨hMatch, hBody⟩ := Bool.or_eq_false_iff.mp hHead
    rw [armsBinders, bodyBinders_nil matchExpr hMatch, bodyBinders_nil body hBody,
      armsBinders_nil arms hArms]
    rfl

theorem bodyBinders_nil : ∀ es : List Expr, bodyUsesLocals es = false → bodyBinders es = []
  | [], _ => rfl
  | e :: es, h => by
    obtain ⟨hHead, hTail⟩ := Bool.or_eq_false_iff.mp h
    rw [bodyBinders, exprBinders_nil e hHead, bodyBinders_nil es hTail]
    rfl
end

/-! The definition forms. -/

section Forms
variable {r : Sema}

theorem tokens_written (n : Nat) (ls : List LocalDecl) :
    List.zipWith (fun (s : Option String) b => (s.getD b.1, b.2)) (ls.map siteOf) (written n ls) =
      written n ls := by
  have hZip := zipWith_written n ls []
  rw [List.append_nil] at hZip
  exact hZip

theorem tokens_inputs (inputs : List String) (n : Nat) (ls : List LocalDecl) :
    List.zipWith (fun (s : Option String) b => (s.getD b.1, b.2))
      (inputs.map some ++ ls.map siteOf) (inputBinders inputs ++ written n ls) =
      inputBinders inputs ++ written n ls := by
  have hLength : (inputs.map some).length = (inputBinders inputs).length := by simp [inputBinders]
  have hInputs := zipWith_inputs inputs []
  rw [List.append_nil] at hInputs
  rw [List.zipWith_append hLength, hInputs, tokens_written]

theorem mem_inputBinders {names : List String} {b : String × Binder} (h : b ∈ inputBinders names) :
    ∃ i, b.2 = .input i := by
  obtain ⟨p, -, rfl⟩ := List.mem_map.mp h
  exact ⟨p.2, rfl⟩

/-- The names that the emitter makes up for the header of a definition. -/
def madeUpNames (r : Sema) (d : Definition) : List String :=
  match d.effect, r.bodyEffects.lookup (lower d.name) with
  | none, some (.known inputs outputs) =>
    (if d.locals.isEmpty then indexed "_mi" inputs else []) ++ indexed "r" outputs
  | _, _ => []

/-- The header names that are not taken from the stack comment. -/
def definitionHeader (r : Sema) (d : Definition) : List String :=
  if d.effect.isSome then [] else Line.header d.locals.isEmpty (emitDefinition d r)

theorem localName_ownWordsOnly : OwnWordsOnly localName? := fun _ _ => ⟨rfl, rfl⟩

/-- The references to locals of a body, by the targets recorded for them. -/
def localRefs (r : Sema) (body : List Expr) : List String :=
  occPicked r localName? (occurrences body)

theorem definition_localRefs (hw : Wide r) (d : Definition) (m : String) :
    m ∈ Line.localRefs (emitDefinition d r) ↔ m ∈ localRefs r d.body := by
  have hBody := mem_picked_emitBody localName_ownWordsOnly hw m d.body
  unfold emitDefinition
  dsimp only
  split
  · exact hBody
  · split
    · split
      · simp only [Line.localRefs, toksPicked_append, nameToks_picked, List.nil_append]
        exact hBody
      · exact hBody
    · exact hBody

/-- What is to be shown of a definition. -/
def DefinitionApart (r : Sema) (n : Nat) (d : Definition) : Prop :=
  NamesApart (d.locals ++ bodyBinders d.body) (localRefs r d.body)
    (madeUpNames r d ++ discardNames n (d.locals ++ bodyBinders d.body))

/-- Head locals, which are the inputs. -/
theorem definition_spelt_head (hw : Wide r) (n : Nat) (d : Definition)
    (hLocals : d.locals.isEmpty = false) :
    SpeltAlike (definitionNames r n d) (definitionHeader r d) (emitDefinition d r) ↔
      DefinitionApart r n d := by
  have hLine : emitDefinition d r = .localsColon (mangled d.name)
      (d.locals.map fun l => bindingName l.name)
      (localsOutputs d.effect (r.bodyEffects.lookup (lower d.name))) (emitBody r d.body) := by
    unfold emitDefinition
    simp [hLocals]
  have hNamed : definitionNames r n d = written n (d.locals ++ bodyBinders d.body) := by
    unfold definitionNames
    simp [hLocals]
  refine spelt_iff [] ?_ (fun b hb => by cases hb) (fun s hs => by cases hs) ?_
    (definition_localRefs hw d)
  · have hAppend : (d.locals.map fun l => bindingName l.name) ++ (bodyBinders d.body).map siteOf =
        (d.locals ++ bodyBinders d.body).map siteOf := List.map_append.symm
    rw [hNamed, hLine, bindingTokens, Line.sites, sites_emitBody hw, hAppend, tokens_written]
    rfl
  · intro _ s hs
    have hRow : s ≠ "..b" := by
      rintro rfl
      exact hs (by decide)
    unfold definitionHeader madeUpNames
    rw [hLine]
    cases hEffect : d.effect with
    | some se => simp
    | none =>
      cases hSynth : r.bodyEffects.lookup (lower d.name) with
      | none => simp [Line.header, hLocals, localsOutputs, hRow]
      | some eff => cases eff <;> simp [Line.header, hLocals, localsOutputs, hRow]

/-- Locals in the body only, behind inputs that are bound and pushed back. -/
theorem definition_spelt_inputs (hw : Wide r) (n : Nat) (d : Definition) {ann : EffectText}
    (hLocals : d.locals = []) (hUses : bodyUsesLocals d.body = true)
    (hAnn : annotation r d = some ann) :
    SpeltAlike (definitionNames r n d) (definitionHeader r d) (emitDefinition d r) ↔
      DefinitionApart r n d := by
  have hLine : emitDefinition d r = .localsColon (mangled d.name) (ann.inputs.map some)
      ann.outputs (nameToks ann.inputs ++ emitBody r d.body) := by
    unfold emitDefinition
    unfold annotation at hAnn
    simp [hLocals, hUses, hAnn]
  have hNamed : definitionNames r n d = inputBinders ann.inputs ++ written n (bodyBinders d.body) := by
    unfold definitionNames
    simp [hLocals, hUses, hAnn]
  unfold DefinitionApart
  rw [hLocals, List.nil_append]
  refine spelt_iff (inputBinders ann.inputs) ?_ ?_ ?_ ?_ (definition_localRefs hw d)
  · rw [hNamed, hLine, bindingTokens, Line.sites, sites_append, sites_nameToks, sites_emitBody hw]
    exact tokens_inputs ann.inputs n (bodyBinders d.body)
  · intro b hb m
    obtain ⟨i, hi⟩ := mem_inputBinders hb
    rw [hi]
    exact fun hEq => by cases hEq
  · intro s hs
    obtain ⟨i, hi⟩ := mem_inputBinders hs
    cases hi
  · intro _ s _
    unfold definitionHeader madeUpNames
    unfold annotation midLocalsAnnotation at hAnn
    rw [hLine]
    cases hEffect : d.effect with
    | some se => simp
    | none =>
      rw [hEffect] at hAnn
      cases hSynth : r.bodyEffects.lookup (lower d.name) with
      | none => simp [hSynth] at hAnn
      | some eff =>
        cases eff with
        | known inputs outputs =>
          simp only [hSynth, Option.some.injEq] at hAnn
          obtain rfl := hAnn
          simp [Line.header, hLocals]
        | unknown => simp [hSynth] at hAnn

/-- Locals in the body only, and no known effect: the header has row variables. -/
theorem definition_spelt_rowVars (hw : Wide r) (n : Nat) (d : Definition)
    (hLocals : d.locals = []) (hUses : bodyUsesLocals d.body = true)
    (hAnn : annotation r d = none) :
    SpeltAlike (definitionNames r n d) (definitionHeader r d) (emitDefinition d r) ↔
      DefinitionApart r n d := by
  have hLine : emitDefinition d r = .localsColon (mangled d.name) (rowVars.inputs.map some)
      rowVars.outputs (emitBody r d.body) := by
    unfold emitDefinition
    unfold annotation at hAnn
    simp [hLocals, hUses, hAnn]
  have hNamed : definitionNames r n d =
      [("..a", Binder.discard)] ++ written n (bodyBinders d.body) := by
    unfold definitionNames
    simp [hLocals, hUses, hAnn, rowVars]
  unfold DefinitionApart
  rw [hLocals, List.nil_append]
  refine spelt_iff [("..a", Binder.discard)] ?_ ?_ ?_ ?_ (definition_localRefs hw d)
  · rw [hNamed, hLine, bindingTokens, Line.sites, sites_emitBody hw]
    exact congrArg _ (tokens_written n (bodyBinders d.body))
  · intro b hb m
    obtain rfl := List.mem_singleton.mp hb
    exact fun hEq => by cases hEq
  · intro s hs
    obtain ⟨rfl, -⟩ := Prod.mk.inj (List.mem_singleton.mp hs)
    decide
  · -- a row variable has dots, which no binding of a local has
    intro _ s hs
    have hIn : s ≠ "..a" := by
      rintro rfl
      exact hs (by decide)
    have hOut : s ≠ "..b" := by
      rintro rfl
      exact hs (by decide)
    unfold definitionHeader madeUpNames
    unfold annotation midLocalsAnnotation at hAnn
    rw [hLine]
    cases hEffect : d.effect with
    | some se => simp
    | none =>
      rw [hEffect] at hAnn
      cases hSynth : r.bodyEffects.lookup (lower d.name) with
      | none => simp [Line.header, hLocals, rowVars, hIn, hOut]
      | some eff =>
        cases eff with
        | known inputs outputs => simp [hSynth] at hAnn
        | unknown => simp [Line.header, hLocals, rowVars, hIn, hOut]

theorem definition_spelt_plain (hw : Wide r) (n : Nat) (d : Definition)
    (hLocals : d.locals = []) (hUses : bodyUsesLocals d.body = false) :
    SpeltAlike (definitionNames r n d) (definitionHeader r d) (emitDefinition d r) ↔
      DefinitionApart r n d := by
  have hNone : bodyBinders d.body = [] := bodyBinders_nil d.body hUses
  have hLine : emitDefinition d r = .colon (mangled d.name)
      ( plainAnnotation d.effect (r.bodyEffects.lookup (lower d.name))) (emitBody r d.body) false := by
    unfold emitDefinition
    simp [hLocals, hUses]
  unfold DefinitionApart
  rw [hLocals, List.nil_append]
  refine spelt_iff [] ?_ (fun b hb => by cases hb) (fun s hs => by cases hs) ?_
    (definition_localRefs hw d)
  · rw [hLine, bindingTokens, Line.sites, sites_emitBody hw, hNone]
    rfl
  · intro hSome
    rw [hNone] at hSome
    exact absurd rfl hSome

theorem definition_spelt (hw : Wide r) (n : Nat) (d : Definition) :
    SpeltAlike (definitionNames r n d) (definitionHeader r d) (emitDefinition d r) ↔
      DefinitionApart r n d := by
  cases hLocals : d.locals.isEmpty with
  | false => exact definition_spelt_head hw n d hLocals
  | true =>
    have hNil := List.isEmpty_iff.mp hLocals
    cases hUses : bodyUsesLocals d.body with
    | false => exact definition_spelt_plain hw n d hNil hUses
    | true =>
      cases hAnn : annotation r d with
      | none => exact definition_spelt_rowVars hw n d hNil hUses hAnn
      | some ann => exact definition_spelt_inputs hw n d hNil hUses hAnn

/-- The names made up for the helper of a method. -/
def methodMadeUp (m : MethodDef) : List String :=
  (if m.locals.isEmpty then indexed "a" m.effect.inputs.length else []) ++
    indexed "r" m.effect.outputs.length

def MethodApart (r : Sema) (n : Nat) (m : MethodDef) : Prop :=
  NamesApart (m.locals ++ bodyBinders m.body) (localRefs r m.body)
    (methodMadeUp m ++ discardNames n (m.locals ++ bodyBinders m.body))

/-- A form that neither binds nor refers to a local. -/
theorem spelt_none {named : List (String × Binder)} {header : List String} {line : Line}
    (hSites : Line.sites line = []) (hRefs : Line.localRefs line = []) :
    SpeltAlike named header line := by
  have hTokens : bindingTokens named line = [] := by
    unfold bindingTokens
    rw [hSites]
    rfl
  refine ⟨fun m hm => ?_, fun m hm => ?_, fun s m m' hs => ?_, fun s m hs => ?_⟩
  · rw [hRefs] at hm
    cases hm
  · rw [hRefs] at hm
    cases hm
  · rw [hTokens] at hs
    cases hs
  · rw [hTokens] at hs
    cases hs

theorem method_spelt (hw : Wide r) (n : Nat) (m : MethodDef) (aux : List String) (helper : Nat) :
    (∀ line ∈ (emitMethod m r aux helper).1,
      SpeltAlike (methodNames n m) (Line.header m.locals.isEmpty line) line) ↔
      MethodApart r n m := by
  have hBody : ∀ k, k ∈ toksPicked localName? (emitBody r m.body) ↔ k ∈ localRefs r m.body :=
    fun k => mem_picked_emitBody localName_ownWordsOnly hw k m.body
  unfold MethodApart
  cases hHelper : methodUsesHelper m with
  | false =>
    obtain ⟨hLocals, hUses⟩ : m.locals = [] ∧ bodyUsesLocals m.body = false := by
      simpa [methodUsesHelper] using hHelper
    have hNone : bodyBinders m.body = [] := bodyBinders_nil m.body hUses
    simp only [emitMethod, hHelper, Bool.false_eq_true, if_false, List.forall_mem_singleton]
    rw [hLocals, List.nil_append]
    refine spelt_iff [] ?_ (fun b hb => by cases hb) (fun s hs => by cases hs) ?_ hBody
    · rw [bindingTokens, Line.sites, sites_emitBody hw, hNone]
      rfl
    · intro hSome
      rw [hNone] at hSome
      exact absurd rfl hSome
  | true =>
    have hCall : ∀ target specializers, SpeltAlike (methodNames n m)
        (Line.header m.locals.isEmpty (.method target specializers
          [userTok (methodHelperName m (helper + 1))]))
        (.method target specializers [userTok (methodHelperName m (helper + 1))]) :=
      fun _ _ => spelt_none rfl rfl
    simp only [emitMethod, hHelper, if_true, List.forall_mem_cons, hCall, List.not_mem_nil,
      IsEmpty.forall_iff, implies_true, and_true]
    cases hLocals : m.locals.isEmpty with
    | true =>
      have hNil := List.isEmpty_iff.mp hLocals
      have hInputs : methodHelperInputs m =
          (indexed "a" m.effect.inputs.length).map some := by simp [methodHelperInputs, hLocals]
      have hNamed : methodNames n m = inputBinders (indexed "a" m.effect.inputs.length) ++
          written n (bodyBinders m.body) := by
        unfold methodNames
        simp [hHelper, hLocals]
      rw [hNil, List.nil_append]
      refine spelt_iff (inputBinders (indexed "a" m.effect.inputs.length)) ?_ ?_ ?_ ?_ hBody
      · rw [hNamed, hInputs, bindingTokens, Line.sites, sites_emitBody hw]
        exact tokens_inputs _ n (bodyBinders m.body)
      · intro b hb k
        obtain ⟨i, hi⟩ := mem_inputBinders hb
        rw [hi]
        exact fun hEq => by cases hEq
      · intro s hs
        obtain ⟨i, hi⟩ := mem_inputBinders hs
        cases hi
      · intro _ s _
        simp [Line.header, methodMadeUp, hInputs, hLocals]
    | false =>
      have hInputs : methodHelperInputs m = m.locals.map fun l => bindingName l.name := by
        simp [methodHelperInputs, hLocals]
      have hNamed : methodNames n m = written n (m.locals ++ bodyBinders m.body) := by
        unfold methodNames
        simp [hHelper, hLocals]
      refine spelt_iff [] ?_ (fun b hb => by cases hb) (fun s hs => by cases hs) ?_ hBody
      · have hAppend : (m.locals.map fun l => bindingName l.name) ++
            (bodyBinders m.body).map siteOf = (m.locals ++ bodyBinders m.body).map siteOf :=
          List.map_append.symm
        rw [hNamed, hInputs, bindingTokens, Line.sites, sites_emitBody hw, hAppend, tokens_written]
        rfl
      · intro _ s _
        simp [Line.header, methodMadeUp, hLocals]

end Forms

/-! The references by their places. -/

/-- The local that a place refers to in its own body. -/
def placeLocal? (p : Place) : Option String :=
  if p.locals.contains (lower p.name) then some (lower p.name) else none

/-- The locals that the occurrences of a body refer to, each by the place resolved last at its span. -/
def localUses (prog : Program) (body : List Expr) : List String :=
  (occurrences body).filterMap fun o => (lastPlace prog o.2).bind placeLocal?

theorem own_local (words values : Dict String Span) (p : Place) :
    (p.own words values).bind localName? = placeLocal? p := by
  unfold Place.own placeLocal? Scope.target
  dsimp only
  split
  · rfl
  · split
    · rfl
    · cases hTable : builtinTable.lookup (lower p.name) with
      | none => rfl
      | some t =>
        have hWord := builtin_not_local hTable
        cases t with
        | local_ m => cases hWord
        | _ => rfl

theorem localRefs_places {words values : Dict String Span} {prog : Program} {sema : Sema}
    (h : ∀ span, sema.wordTargets.lookup span = lastAt words values (walkedPlaces prog) span)
    (body : List Expr) : localRefs sema body = localUses prog body := by
  unfold localRefs occPicked localUses
  congr 1
  funext o
  rw [h, lastAt, Option.bind_assoc]
  show (lastPlace prog o.2).bind (fun p => (p.own words values).bind localName?) = _
  simp only [own_local]

/-! The compile. -/

section
variable (host : Host) (fs : FileSystem) (source : String) (ctx : CompileContext) (synth : Nat)

/-- In an accepted compile the locals of a definition or method are spelt alike where they are bound and
where they are referred to, apart from each other and from made up names, exactly when the references
are to declared names without dots, no two names differ in dots alone, and none is a made up name once
its dots are replaced. -/
theorem compile_localsSpelt {sema : Sema} (h : (analyse host fs source ctx synth).result = .ok sema) :
    let prog := preparedProgram host fs source ctx synth
    (∀ d, .definition d ∈ sema.program.items → ∀ n,
      (SpeltAlike (definitionNames sema n d) (definitionHeader sema d) (emitDefinition d sema) ↔
        NamesApart (d.locals ++ bodyBinders d.body) (localUses prog d.body)
          (madeUpNames sema d ++ discardNames n (d.locals ++ bodyBinders d.body)))) ∧
    ∀ m, .method m ∈ sema.program.items → ∀ n aux helper,
      ((∀ line ∈ (emitMethod m sema aux helper).1,
        SpeltAlike (methodNames n m) (Line.header m.locals.isEmpty line) line) ↔
        NamesApart (m.locals ++ bodyBinders m.body) (localUses prog m.body)
          (methodMadeUp m ++ discardNames n (m.locals ++ bodyBinders m.body))) := by
  intro prog
  have hWide := analyse_wide host fs h
  obtain ⟨hSome, hLookup⟩ := analyse_records host fs source ctx synth h
  constructor
  · intro d _ n
    rw [← localRefs_places hLookup d.body]
    exact definition_spelt hWide n d
  · intro m _ n aux helper
    rw [← localRefs_places hLookup m.body]
    exact method_spelt hWide n m aux helper

end

theorem compile_localsSpelt_oneLocal :
    ∃ sema, (analyse noLet noFiles ": f {: x :} x ;" .new 0).result = .ok sema ∧
      ∀ d, .definition d ∈ sema.program.items → ∀ n,
        (SpeltAlike (definitionNames sema n d) (definitionHeader sema d) (emitDefinition d sema) ↔
          NamesApart (d.locals ++ bodyBinders d.body)
            (localUses (preparedProgram noLet noFiles ": f {: x :} x ;" .new 0) d.body)
            (madeUpNames sema d ++ discardNames n (d.locals ++ bodyBinders d.body))) := by
  have hOk : (analyse noLet noFiles ": f {: x :} x ;" .new 0).result.isOk = true := by decide +kernel
  cases h : (analyse noLet noFiles ": f {: x :} x ;" .new 0).result with
  | error e =>
    rw [h] at hOk
    cases hOk
  | ok sema =>
    exact ⟨sema, rfl, (compile_localsSpelt noLet noFiles ": f {: x :} x ;" .new 0 h).1⟩

/-- The local `a.b` is bound as `a_b` and referred to as `a.b`. -/
theorem compile_not_localsSpelt :
    ¬ ∀ (source : String) (sema : Sema), (analyse noLet noFiles source .new 0).result = .ok sema →
      ∀ d, .definition d ∈ sema.program.items → ∀ n,
        SpeltAlike (definitionNames sema n d) (definitionHeader sema d) (emitDefinition d sema) := by
  intro hAll
  have hDotted : (analyse noLet noFiles ": f {: a.b :} a.b ;" .new 0).result.toOption.map
      (fun sema => (definitions sema.program.items).any fun d =>
        decide ("a.b" ∈ Line.localRefs (emitDefinition d sema)) && decide (("a_b", Binder.local_ "a.b") ∈
          bindingTokens (definitionNames sema 0 d) (emitDefinition d sema))) = some true := by
    decide +kernel
  cases h : (analyse noLet noFiles ": f {: a.b :} a.b ;" .new 0).result with
  | error e =>
    rw [h] at hDotted
    cases hDotted
  | ok sema =>
    rw [h] at hDotted
    obtain ⟨d, hd, hDotted⟩ := List.any_eq_true.mp (Option.some.inj hDotted)
    obtain ⟨hRef, hBound⟩ := (Bool.and_eq_true _ _).mp hDotted
    have hSpelt := (hAll _ sema h d (mem_definitions.mp hd) 0).spelt "a.b" (of_decide_eq_true hRef) "a_b"
      (of_decide_eq_true hBound)
    exact absurd hSpelt (by decide)

end FactorForth.Correctness
