import FactorForth.Correctness.Session
import FactorForth.Library.Runs
import FactorForth.Library.Outcome

/-! What a name is in a session: the role that its latest definition gives it, against the roles that
the context keeps. -/

namespace FactorForth.Correctness
open FactorForth.Library FactorForth.Compiler

/-- What the compiler takes a name for: a target of `TO`, a defining word, a class with its slots, a
word with its effect. -/
structure Role where
  value : Bool
  template : Option TemplateDef
  slots : Option (List String)
  effect : Option Effect

def Role.undefined : Role := ⟨false, none, none, none⟩

/-- The role of a name in the compiles that start from a context. -/
def roleIn (ctx : CompileContext) (k : String) : Role :=
  ⟨Dict.contains ctx.values k, ctx.templates.lookup k, ctx.classes.lookup k,
    ctx.userEffects.lookup k⟩

def classNames (items : List Item) : List String := (classes items).map fun c => lower c.name

/-- The names a compile records an effect for by itself. -/
def effectNames (items : List Item) (classSlots : Dict String (List String)) : List String :=
  (items.flatMap fun item => (item.seedEffect.map Prod.fst).toList) ++
    (classes items).flatMap fun c =>
      (classSynthEffects (lower c.name) (slotsOf classSlots c)).map Prod.fst

def definesWord (s : Sema) (k : String) : Bool := Dict.contains s.userWords k

/-- The role that a compile gives to a name it defines. -/
def roleFrom (s : Sema) (k : String) : Role :=
  ⟨Dict.contains s.values k, s.templates.lookup k,
    if k ∈ classNames s.program.items then s.classSlots.lookup k else none,
    if k ∈ effectNames s.program.items s.classSlots then s.userEffects.lookup k else none⟩

/-- A session: its context and counters, and the compiles that succeeded, the latest first. -/
structure Session where
  ctx : CompileContext
  counters : Counters
  done : List Sema

namespace Session

def start (counters : Counters) : Session := ⟨.new, counters, []⟩

def eval (host : Host) (fs : FileSystem) (s : Session) (source : String) : Session :=
  let compiled := compileInContextWithDiagnostics host fs source s.ctx s.counters
  ⟨compiled.context, compiled.counters,
    (analyse host fs source s.ctx s.counters.synth).result.toOption.toList ++ s.done⟩

/-- The role of a name by its latest definition. -/
def latestRole (s : Session) (k : String) : Role :=
  (s.done.find? fun m => definesWord m k).elim Role.undefined fun m => roleFrom m k

/-- Every name is what its latest definition made it, and nothing else. -/
def Latest (s : Session) : Prop := ∀ k, roleIn s.ctx k = s.latestRole k

end Session

/-- A compile gives every name that it defines again the kinds that the context has it under; no effect
is recorded for the predicate of a class. -/
structure KeepsKinds (ctx : CompileContext) (s : Sema) : Prop where
  value : ∀ k, definesWord s k = true → Dict.contains ctx.values k = true →
    Dict.contains s.values k = true
  template : ∀ k, definesWord s k = true → Dict.contains ctx.templates k = true →
    Dict.contains s.templates k = true
  class_ : ∀ k, definesWord s k = true → Dict.contains ctx.classes k = true →
    k ∈ classNames s.program.items
  effect : ∀ k, definesWord s k = true → Dict.contains ctx.userEffects k = true →
    k ∈ effectNames s.program.items s.classSlots

/-! What each table is written by. -/

theorem writes_values : Dict.Writes (fun (vs : Dict String ValueDef) (item : Item) =>
    match item with
    | .value v => Dict.insert vs (lower v.name) v
    | _ => vs) fun
    | .value v => [lower v.name]
    | _ => [] := by
  intro vs item k
  cases item with
  | value v => exact Dict.writes_insert vs (lower v.name, v) k
  | _ => exact ⟨by simp, fun _ => rfl⟩

theorem writes_templates : Dict.Writes (fun (ts : Dict String TemplateDef) (item : Item) =>
    match item with
    | .template t => Dict.insert ts (lower t.name) t
    | _ => ts) fun
    | .template t => [lower t.name]
    | _ => [] := by
  intro ts item k
  cases item with
  | template t => exact Dict.writes_insert ts (lower t.name, t) k
  | _ => exact ⟨by simp, fun _ => rfl⟩

theorem writes_classSlots : Dict.Writes (fun (out : Dict String (List String)) (item : Item) =>
    match item with
    | .class_ c =>
      let inherited := match c.superclass with
        | some parent => (out.lookup (lower parent)).getD []
        | none => []
      Dict.insert out (lower c.name) (inherited ++ c.slots.map fun s => lower s.name)
    | _ => out) fun
    | .class_ c => [lower c.name]
    | _ => [] := by
  intro out item k
  cases item with
  | class_ c => exact Dict.writes_insert out (lower c.name, _) k
  | _ => exact ⟨by simp, fun _ => rfl⟩

theorem mem_classes {items : List Item} {c : ClassDef} : c ∈ classes items ↔ .class_ c ∈ items :=
  mem_picked fun item a => by cases item <;> simp

theorem writes_seedEffects : Dict.Writes (fun (eff : Dict String Effect) (item : Item) =>
    match item.seedEffect with
    | some (lc, e) => Dict.insert eff lc e
    | none => eff) fun item => (item.seedEffect.map Prod.fst).toList := by
  intro eff item k
  have hOption := Dict.Writes.option (f := Item.seedEffect) eff item k
  cases hSeed : item.seedEffect with
  | none => simp [hSeed]
  | some p => simpa [hSeed] using hOption

theorem writes_classSynthEffects (classSlots : Dict String (List String)) :
    Dict.Writes (fun (eff : Dict String Effect) (c : ClassDef) =>
      (classSynthEffects (lower c.name) (slotsOf classSlots c)).foldl
        (fun eff p => Dict.insert eff p.1 p.2) eff) fun c =>
      (classSynthEffects (lower c.name) (slotsOf classSlots c)).map Prod.fst := by
  intro eff c k
  have hFold := Dict.writes_insert.foldl eff
    (classSynthEffects (lower c.name) (slotsOf classSlots c)) k
  simpa [List.flatMap_singleton'] using hFold

theorem writes_classUserWords (classSlots : Dict String (List String)) :
    Dict.Writes (fun (words : Dict String UserWord) (c : ClassDef) =>
      (classUserWords c (slotsOf classSlots c)).foldl
        (fun words p => Dict.orInsert words p.1 p.2) words) fun c =>
      (classUserWords c (slotsOf classSlots c)).map Prod.fst := by
  intro words c k
  have hFold := Dict.writes_orInsert.foldl words (classUserWords c (slotsOf classSlots c)) k
  simpa [List.flatMap_singleton'] using hFold

theorem writes_userWords : Dict.Writes (fun (words : Dict String UserWord) (w : UserWord) =>
    Dict.insert words (lower w.name) w) fun w => [lower w.name] := by
  intro words w k
  exact Dict.writes_insert words (lower w.name, w) k

/-- Inference only records effects of names that are seeded. -/
theorem inferWithPrior_userEffects (r : Resolved) (prior : Dict String Effect) (k : String) :
    (k ∈ r.program.items.flatMap (fun item => (item.seedEffect.map Prod.fst).toList) →
      Dict.contains (inferWithPrior r prior).1.userEffects k = true) ∧
    (k ∉ r.program.items.flatMap (fun item => (item.seedEffect.map Prod.fst).toList) →
      (inferWithPrior r prior).1.userEffects.lookup k = prior.lookup k) := by
  have hSeeds := writes_seedEffects.foldl prior r.program.items k
  have hNames : ∀ d ∈ definitions r.program.items,
      lower d.name ∈ r.program.items.flatMap fun item => (item.seedEffect.map Prod.fst).toList := by
    intro d hd
    exact List.mem_flatMap.mpr ⟨_, mem_definitions.mp hd, by simp [Item.seedEffect]⟩
  generalize hKeys : r.program.items.flatMap (fun item => (item.seedEffect.map Prod.fst).toList) =
    keys at hNames hSeeds ⊢
  have hFold : ∀ (ds : List Definition) (inf : Inferred × List EffectError),
      (∀ d ∈ ds, lower d.name ∈ keys) →
      ((k ∈ keys → Dict.contains inf.1.userEffects k = true) ∧
        (k ∉ keys → inf.1.userEffects.lookup k = prior.lookup k)) →
      (k ∈ keys → Dict.contains (ds.foldl (inferDefinition r.wordTargets) inf).1.userEffects k = true) ∧
        (k ∉ keys → (ds.foldl (inferDefinition r.wordTargets) inf).1.userEffects.lookup k =
          prior.lookup k) := by
    intro ds
    induction ds with
    | nil => exact fun _ _ h => h
    | cons d ds ih =>
      intro inf hds h
      apply ih _ fun d' hd' => hds d' (List.mem_cons_of_mem _ hd')
      have hd := hds d List.mem_cons_self
      unfold inferDefinition
      dsimp only
      split
      · constructor
        · intro hk
          rw [Dict.contains_insert, h.1 hk, Bool.or_true]
        · intro hk
          rw [Dict.lookup_insert_ne _ _ fun hEq : lower d.name = k => hk (hEq ▸ hd)]
          exact h.2 hk
      · exact h
  exact hFold _ _ hNames hSeeds

/-! The tables of one compile. -/

theorem mem_classKeys {items : List Item} {k : String} :
    k ∈ items.flatMap (fun
      | .class_ c => [lower c.name]
      | _ => []) ↔ k ∈ classNames items := by
  induction items with
  | nil => exact Iff.rfl
  | cons item items ih =>
    rw [List.flatMap_cons, List.mem_append, ih]
    cases item <;> simp [classNames, classes]

theorem classes_lowerExit (wordTargets : Dict Span Target) (items : List Item) :
    classes (items.map (Item.lowerExit wordTargets)) = classes items := by
  induction items with
  | nil => rfl
  | cons item items ih => cases item <;> simpa [classes, Item.lowerExit] using ih

/-- Every name that a table of the compile has an entry for is a word it defines. -/
theorem names_defined (items : List Item) (classSlots : Dict String (List String)) {k : String}
    (h : Dict.contains (collectUserWords items classSlots) k = false) :
    Dict.contains (collectValues items) k = false ∧
      (collectTemplates items).lookup k = none ∧ k ∉ classNames items ∧
      k ∉ effectNames items classSlots := by
  -- later writers win, so what the whole table lacks no writer of it wrote
  have hClassWords := (writes_classUserWords classSlots).foldl
    ((items.filterMap Item.userWord).foldl (fun words w => Dict.insert words (lower w.name) w) [])
    (classes items) k
  have hNamed := writes_userWords.foldl [] (items.filterMap Item.userWord) k
  have hNotClassWord : k ∉ (classes items).flatMap fun c =>
      (classUserWords c (slotsOf classSlots c)).map Prod.fst := by
    intro hk
    rw [collectUserWords, hClassWords.1 hk] at h
    cases h
  have hNotNamed : ∀ item ∈ items, ∀ w, item.userWord = some w → lower w.name ≠ k := by
    intro item hItem w hw hEq
    have hk : k ∈ (items.filterMap Item.userWord).flatMap fun w => [lower w.name] :=
      List.mem_flatMap.mpr ⟨w, List.mem_filterMap.mpr ⟨item, hItem, hw⟩, by simp [hEq]⟩
    have hHas := hNamed.1 hk
    rw [Dict.contains, ← hClassWords.2 hNotClassWord] at hHas
    rw [collectUserWords, Dict.contains, hHas] at h
    cases h
  refine ⟨?_, ?_, ?_, ?_⟩
  · have hValues := writes_values.foldl [] items k
    have hNone : (collectValues items).lookup k = none := by
      apply hValues.2
      intro hk
      obtain ⟨item, hItem, hKey⟩ := List.mem_flatMap.mp hk
      cases item with
      | value v => exact hNotNamed _ hItem _ rfl (List.mem_singleton.mp hKey).symm
      | _ => cases hKey
    rw [Dict.contains, hNone]
    rfl
  · have hTemplates := writes_templates.foldl [] items k
    apply hTemplates.2
    intro hk
    obtain ⟨item, hItem, hKey⟩ := List.mem_flatMap.mp hk
    cases item with
    | template t => exact hNotNamed _ hItem _ rfl (List.mem_singleton.mp hKey).symm
    | _ => cases hKey
  · intro hk
    obtain ⟨c, hc, hEq⟩ := List.mem_map.mp hk
    exact hNotNamed _ (mem_classes.mp hc) _ rfl hEq
  · intro hk
    rcases List.mem_append.mp hk with hSeed | hClass
    · obtain ⟨item, hItem, hKey⟩ := List.mem_flatMap.mp hSeed
      cases item <;> simp [Item.seedEffect] at hKey <;>
        exact hNotNamed _ hItem _ rfl hKey.symm
    · obtain ⟨c, hc, hKey⟩ := List.mem_flatMap.mp hClass
      apply hNotClassWord
      refine List.mem_flatMap.mpr ⟨c, hc, ?_⟩
      simp only [classSynthEffects, classUserWords, List.map_cons, List.map_append, List.map_nil,
        List.map_flatMap, List.mem_cons, List.mem_append] at hKey ⊢
      rcases hKey with hKey | hKey
      · exact .inl (.inl hKey)
      · exact .inr hKey

/-- What a compile takes from the context it starts from. -/
theorem analyse_built (host : Host) (fs : FileSystem) {source : String} {ctx : CompileContext}
    {synth : Nat} {s : Sema} (h : (analyse host fs source ctx synth).result = .ok s) :
    ∃ resolved docs, s = (semaOfResolved resolved
      (computeClassSlots resolved.program ctx.classes) ctx.userEffects).forSession docs := by
  obtain ⟨own, items, docs, built, synth', -, -, hBuild, rfl⟩ := analyse_ok host fs h
  obtain ⟨words, targets, -, -, rfl⟩ := build_ok hBuild
  exact ⟨_, _, rfl⟩

section Built
variable {host : Host} {fs : FileSystem} {source : String} {ctx : CompileContext} {synth : Nat}
variable {s : Sema} (h : (analyse host fs source ctx synth).result = .ok s)
include h

theorem built_undefined {k : String} (hk : definesWord s k = false) :
    Dict.contains s.values k = false ∧ s.templates.lookup k = none ∧
      k ∉ classNames s.program.items ∧ k ∉ effectNames s.program.items s.classSlots := by
  obtain ⟨resolved, docs, rfl⟩ := analyse_built host fs h
  exact names_defined _ _ hk

theorem built_classSlots (k : String) :
    (k ∈ classNames s.program.items → Dict.contains s.classSlots k = true) ∧
      (k ∉ classNames s.program.items → s.classSlots.lookup k = ctx.classes.lookup k) := by
  obtain ⟨resolved, docs, rfl⟩ := analyse_built host fs h
  have hSlots := writes_classSlots.foldl ctx.classes resolved.program.items k
  rw [mem_classKeys] at hSlots
  show (k ∈ classNames (resolved.program.items.map (Item.lowerExit resolved.wordTargets)) → _) ∧
    (k ∉ classNames (resolved.program.items.map (Item.lowerExit resolved.wordTargets)) → _)
  unfold classNames at hSlots ⊢
  rw [classes_lowerExit]
  exact hSlots

theorem built_userEffects (k : String) :
    (k ∈ effectNames s.program.items s.classSlots → Dict.contains s.userEffects k = true) ∧
      (k ∉ effectNames s.program.items s.classSlots →
        s.userEffects.lookup k = ctx.userEffects.lookup k) := by
  obtain ⟨resolved, docs, rfl⟩ := analyse_built host fs h
  let classSlots := computeClassSlots resolved.program ctx.classes
  let items := resolved.program.items.map (Item.lowerExit resolved.wordTargets)
  let inferred := (inferWithPrior { resolved with program := ⟨items⟩ } ctx.userEffects).1
  have hInfer := inferWithPrior_userEffects { resolved with program := ⟨items⟩ } ctx.userEffects k
  have hSynth := (writes_classSynthEffects classSlots).foldl inferred.userEffects (classes items) k
  show (k ∈ effectNames items classSlots →
      Dict.contains (seedClassSynthEffects items classSlots inferred.userEffects) k = true) ∧
    (k ∉ effectNames items classSlots →
      (seedClassSynthEffects items classSlots inferred.userEffects).lookup k =
        ctx.userEffects.lookup k)
  unfold seedClassSynthEffects effectNames
  rw [List.mem_append]
  constructor
  · intro hk
    by_cases hClass : k ∈ (classes items).flatMap fun c =>
        (classSynthEffects (lower c.name) (slotsOf classSlots c)).map Prod.fst
    · exact hSynth.1 hClass
    · have hSeed := hInfer.1 (hk.resolve_right hClass)
      rwa [Dict.contains, hSynth.2 hClass]
  · intro hk
    rw [not_or] at hk
    rw [hSynth.2 hk.2, hInfer.2 hk.1]

end Built

/-! A step of a session. -/

theorem roleIn_update (ctx : CompileContext) (s : Sema) (k : String) :
    roleIn (ctx.update s) k = ⟨Dict.contains s.values k || Dict.contains ctx.values k,
      (s.templates.lookup k).or (ctx.templates.lookup k),
      (s.classSlots.lookup k).or (ctx.classes.lookup k),
      (s.userEffects.lookup k).or (ctx.userEffects.lookup k)⟩ := by
  have hValues : Dict.contains (s.values.map fun p => (p.1, p.2.nameSpan)) k =
      Dict.contains s.values k := Dict.contains_map (fun _ v => v.nameSpan) s.values k
  unfold roleIn CompileContext.update
  rw [Dict.contains_merge, Dict.lookup_merge, Dict.lookup_merge, Dict.lookup_merge, hValues]

theorem or_eq_left_iff {α : Type} {a b : Option α} :
    a.or b = a ↔ (b.isSome = true → a.isSome = true) := by
  cases a <;> cases b <;> simp

section Step
variable {host : Host} {fs : FileSystem} {source : String} {ctx : CompileContext} {synth : Nat}
variable {s : Sema} (h : (analyse host fs source ctx synth).result = .ok s) {k : String}
include h

theorem roleIn_other (hk : definesWord s k = false) : roleIn (ctx.update s) k = roleIn ctx k := by
  obtain ⟨hValue, hTemplate, hClass, hEffect⟩ := built_undefined h hk
  rw [roleIn_update, hValue, hTemplate, (built_classSlots h k).2 hClass,
    (built_userEffects h k).2 hEffect, Option.or_self, Option.or_self]
  rfl

/-- A name defined again has its new role exactly when no table has it under another kind. -/
theorem roleIn_defined : roleIn (ctx.update s) k = roleFrom s k ↔
    (Dict.contains ctx.values k = true → Dict.contains s.values k = true) ∧
    (Dict.contains ctx.templates k = true → Dict.contains s.templates k = true) ∧
    (Dict.contains ctx.classes k = true → k ∈ classNames s.program.items) ∧
    (Dict.contains ctx.userEffects k = true → k ∈ effectNames s.program.items s.classSlots) := by
  obtain ⟨hSlots, hNoSlots⟩ := built_classSlots h k
  obtain ⟨hEffect, hNoEffect⟩ := built_userEffects h k
  rw [roleIn_update, roleFrom, Role.mk.injEq, or_eq_left_iff]
  have hValue : (Dict.contains s.values k || Dict.contains ctx.values k) =
      Dict.contains s.values k ↔
      (Dict.contains ctx.values k = true → Dict.contains s.values k = true) := by
    cases Dict.contains s.values k <;> cases Dict.contains ctx.values k <;> simp
  have hClass : (s.classSlots.lookup k).or (ctx.classes.lookup k) =
      (if k ∈ classNames s.program.items then s.classSlots.lookup k else none) ↔
      (Dict.contains ctx.classes k = true → k ∈ classNames s.program.items) := by
    by_cases hk : k ∈ classNames s.program.items
    · rw [if_pos hk, or_eq_left_iff]
      exact ⟨fun _ _ => hk, fun _ _ => hSlots hk⟩
    · rw [if_neg hk, hNoSlots hk, Option.or_self, Dict.contains]
      cases ctx.classes.lookup k <;> simp [hk]
  have hEff : (s.userEffects.lookup k).or (ctx.userEffects.lookup k) =
      (if k ∈ effectNames s.program.items s.classSlots then s.userEffects.lookup k else none) ↔
      (Dict.contains ctx.userEffects k = true →
        k ∈ effectNames s.program.items s.classSlots) := by
    by_cases hk : k ∈ effectNames s.program.items s.classSlots
    · rw [if_pos hk, or_eq_left_iff]
      exact ⟨fun _ _ => hk, fun _ _ => hEffect hk⟩
    · rw [if_neg hk, hNoEffect hk, Option.or_self, Dict.contains]
      cases ctx.userEffects.lookup k <;> simp [hk]
  rw [hValue, hClass, hEff]
  exact Iff.rfl

end Step

/-- A compile from a context without stale roles leaves none exactly when it keeps the kinds of the
names it defines again. -/
theorem latest_eval (host : Host) (fs : FileSystem) (s : Session) (source : String)
    (hs : s.Latest) : (s.eval host fs source).Latest ↔
      ∀ m, (analyse host fs source s.ctx s.counters.synth).result = .ok m →
        KeepsKinds s.ctx m := by
  unfold Session.eval compileInContextWithDiagnostics
  dsimp only
  cases h : (analyse host fs source s.ctx s.counters.synth).result with
  | error e => exact ⟨fun _ m hm => (nomatch hm), fun _ k => hs k⟩
  | ok m =>
    have hRole : ∀ k, (definesWord m k = false →
        roleIn (s.ctx.update m) k = s.latestRole k) := by
      intro k hk
      rw [roleIn_other h hk]
      exact hs k
    constructor
    · intro hLatest m' hm'
      obtain rfl := Except.ok.inj hm'
      have hKinds : ∀ k, definesWord m k = true → _ := fun k hk => by
        have hk' := hLatest k
        simp only [Session.latestRole, Except.toOption, Option.toList_some, List.cons_append,
          List.nil_append, List.find?_cons, hk, Option.elim_some] at hk'
        exact (roleIn_defined h).mp hk'
      exact ⟨fun k hk => (hKinds k hk).1, fun k hk => (hKinds k hk).2.1,
        fun k hk => (hKinds k hk).2.2.1, fun k hk => (hKinds k hk).2.2.2⟩
    · intro hKeeps k
      have hKind := hKeeps m rfl
      cases hk : definesWord m k with
      | false =>
        have hFind : Session.latestRole ⟨s.ctx.update m, s.counters, m :: s.done⟩ k =
            s.latestRole k := by
          simp only [Session.latestRole, List.find?_cons, hk]
        exact (hRole k hk).trans hFind.symm
      | true =>
        have hFind : Session.latestRole ⟨s.ctx.update m, s.counters, m :: s.done⟩ k =
            roleFrom m k := by
          simp only [Session.latestRole, List.find?_cons, hk, Option.elim_some]
        have hRole := (roleIn_defined h).mpr ⟨hKind.value k hk, hKind.template k hk,
          hKind.class_ k hk, hKind.effect k hk⟩
        exact hRole.trans hFind.symm

theorem latest_start (counters : Counters) : (Session.start counters).Latest := fun _ => rfl

end FactorForth.Correctness
