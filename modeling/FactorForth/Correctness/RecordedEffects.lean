import Mathlib.Data.List.Lattice
import Mathlib.Data.List.Nodup
import Mathlib.Data.List.Pairwise
import FactorForth.Correctness.LatestDefinition

/-! The recorded effect of a colon definition: the counts of its comment, or what is inferred of its body
from entries that the session keeps. -/

namespace FactorForth.Correctness
open FactorForth.Library FactorForth.Compiler

/-! Registered names, and the effects that items declare under them. -/

theorem register_nodup {names : List (String × Span)} {words words' : Dict String Span}
    (h : register names words = .ok words') :
    (names.map fun p => lower p.1).Nodup ∧
      ∀ k ∈ names.map fun p => lower p.1, Dict.contains words k = false := by
  induction names generalizing words with
  | nil => exact ⟨List.nodup_nil, fun k hk => nomatch hk⟩
  | cons p names ih =>
    obtain ⟨name, span⟩ := p
    rw [register] at h
    split at h
    · cases h
    · rename_i hFree
      obtain ⟨hNodup, hNew⟩ := ih h
      have hAbsent : Dict.contains words (lower name) = false := by
        rw [Dict.contains, hFree]
        rfl
      refine ⟨List.nodup_cons.mpr ⟨?_, hNodup⟩, ?_⟩
      · intro hIn
        have hTaken := hNew _ hIn
        rw [Dict.contains_insert, decide_eq_true rfl, Bool.true_or] at hTaken
        cases hTaken
      · intro k hk
        obtain rfl | hk := List.mem_cons.mp hk
        · exact hAbsent
        · have hOther := hNew k hk
          rw [Dict.contains_insert, Bool.or_eq_false_iff] at hOther
          exact hOther.2

/-- The names an item registers. -/
def registered (classSlots : Dict String (List String)) (items : List Item) : List String :=
  (items.flatMap (Item.introduced classSlots)).map fun p => lower p.1

def seedNames (items : List Item) : List String :=
  items.flatMap fun item => (item.seedEffect.map Prod.fst).toList

theorem seedName_sublist (classSlots : Dict String (List String)) (item : Item) :
    (item.seedEffect.map Prod.fst).toList.Sublist
      ((item.introduced classSlots).map fun p => lower p.1) := by
  cases item with
  | class_ c =>
    show [lower c.name].Sublist (lower (lower c.name) :: _)
    rw [lower_idem]
    exact List.Sublist.cons_cons _ (List.nil_sublist _)
  | _ => exact List.Sublist.refl _

theorem seedNames_sublist (classSlots : Dict String (List String)) (items : List Item) :
    (seedNames items).Sublist (registered classSlots items) := by
  induction items with
  | nil => exact List.Sublist.refl _
  | cons item items ih =>
    have hHead := seedName_sublist classSlots item
    unfold registered seedNames at *
    rw [List.flatMap_cons, List.flatMap_cons, List.map_append]
    exact hHead.append ih

theorem definitionNames_sublist (items : List Item) :
    ((definitions items).map fun d => lower d.name).Sublist (seedNames items) := by
  induction items with
  | nil => exact List.Sublist.refl _
  | cons item items ih =>
    unfold definitions seedNames at *
    rw [List.flatMap_cons, List.filterMap_cons]
    cases item with
    | definition d => exact List.Sublist.cons_cons _ ih
    | _ => exact ih.trans (List.sublist_append_right _ _)

/-- A seed stays where no later item seeds the same name. -/
theorem seedEffects_lookup {items : List Item} (hNodup : (seedNames items).Nodup) {item : Item}
    (hItem : item ∈ items) {k : String} {e : Effect} (hSeed : item.seedEffect = some (k, e))
    (prior : Dict String Effect) : (seedEffects items prior).lookup k = some e := by
  unfold seedEffects
  induction items generalizing prior with
  | nil => cases hItem
  | cons head items ih =>
    unfold seedNames at hNodup
    rw [List.flatMap_cons, List.nodup_append] at hNodup
    rw [List.foldl_cons]
    obtain rfl | hTail := List.mem_cons.mp hItem
    · have hOut : k ∉ seedNames items := by
        intro hk
        exact hNodup.2.2 k (by rw [hSeed]; exact List.mem_singleton_self k) k hk rfl
      refine ((writes_seedEffects.foldl _ items k).2 hOut).trans ?_
      rw [hSeed]
      exact Dict.lookup_insert_self _ _ _
    · exact ih hNodup.2.1 hTail _

/-- The names that the classes of a program are known by beside their own. -/
def synthNames (classSlots : Dict String (List String)) (items : List Item) : List String :=
  (classes items).flatMap fun c =>
    (classSynthEffects (lower c.name) (slotsOf classSlots c)).map Prod.fst

theorem seed_lower {item : Item} {k : String}
    (h : k ∈ (item.seedEffect.map Prod.fst).toList) : lower k = k := by
  cases item with
  | method _ => cases h
  | rawFactor _ => cases h
  | topLevel _ _ => cases h
  | needs _ _ => cases h
  | _ =>
    obtain rfl := List.mem_singleton.mp h
    exact lower_idem _

/-- The words of a class are registered behind its own name. -/
theorem synth_registered {c : ClassDef} {slots : List String} {k : String}
    (h : k ∈ (classSynthEffects (lower c.name) slots).map Prod.fst) :
    lower k ∈ ((classSynthesisedNames c slots).tail.map fun p => lower p.1) := by
  unfold classSynthEffects at h
  unfold classSynthesisedNames
  rw [List.map_cons, List.map_flatMap, List.mem_cons, List.mem_flatMap] at h
  simp only [List.cons_append, List.nil_append, List.tail_cons, List.map_cons, List.map_flatMap,
    List.mem_cons, List.mem_flatMap]
  obtain rfl | ⟨s, hs, hk⟩ := h
  · exact .inl rfl
  · refine .inr (.inr ⟨s, hs, ?_⟩)
    simp only [List.map_cons, List.map_nil, List.mem_cons, List.not_mem_nil, or_false] at hk ⊢
    obtain rfl | rfl | rfl := hk
    · exact .inl rfl
    · exact .inr (.inl rfl)
    · exact .inr (.inr rfl)

/-- In a program that registers, no item seeds a word of a class. -/
theorem seed_not_classWord {classSlots : Dict String (List String)} {items : List Item}
    (hNodup : (registered classSlots items).Nodup) {c : ClassDef} (hc : c ∈ classes items) {k : String}
    (hClass : lower k ∈ (classSynthesisedNames c (slotsOf classSlots c)).tail.map fun p => lower p.1) :
    k ∉ seedNames items := by
  intro hSeed
  obtain ⟨a, ha, hak⟩ := List.mem_flatMap.mp hSeed
  rw [seed_lower hak] at hClass
  unfold registered at hNodup
  rw [List.map_flatMap, List.nodup_flatMap] at hNodup
  have hOwn := hNodup.1 _ (mem_classes.1 hc)
  by_cases hab : a = .class_ c
  · subst hab
    obtain rfl := List.mem_singleton.mp hak
    have hHead := (List.nodup_cons.mp hOwn).1
    change lower (lower c.name) ∉ _ at hHead
    rw [lower_idem] at hHead
    exact hHead hClass
  · let names := fun item : Item => (item.introduced classSlots).map fun p => lower p.1
    have hSymm : Std.Symm (Function.onFun List.Disjoint names) := ⟨fun _ _ h => h.symm⟩
    have hApart := hNodup.2.forall ha (mem_classes.1 hc) hab
    exact hApart ((seedName_sublist classSlots a).subset hak) (List.mem_of_mem_tail hClass)

/-- In a program that registers, no class brings a word of another item into being. -/
theorem seed_not_synth {classSlots : Dict String (List String)} {items : List Item}
    (hNodup : (registered classSlots items).Nodup) {k : String} (hSeed : k ∈ seedNames items) :
    k ∉ synthNames classSlots items := by
  intro hSynth
  obtain ⟨c, hc, hck⟩ := List.mem_flatMap.mp hSynth
  exact seed_not_classWord hNodup hc (synth_registered hck) hSeed

theorem registered_lowerExit (classSlots : Dict String (List String)) (items : List Item)
    (wordTargets : Dict Span Target) :
    registered classSlots (items.map (Item.lowerExit wordTargets)) =
      registered classSlots items := by
  unfold registered
  rw [List.flatMap_map]
  congr 2
  funext item
  cases item <;> rfl

/-! Tables of counts. -/

/-- Every count of `env` is one of `table`. -/
def Below (env table : Dict String Effect) : Prop :=
  ∀ k i o, env.lookup k = some (.known i o) → table.lookup k = some (.known i o)

theorem Below.refl (table : Dict String Effect) : Below table table := fun _ _ _ h => h

theorem Below.trans {a b c : Dict String Effect} (hab : Below a b) (hbc : Below b c) : Below a c :=
  fun k i o h => hbc k i o (hab k i o h)

/-! More counts in the table leave what is inferred as it is, or make it known. -/

/-- `b` knows what `a` knows. -/
def Refines (a b : Effect) : Prop := a = .unknown ∨ a = b

namespace Refines
variable {a a' b b' : Effect}

theorem refl (a : Effect) : Refines a a := .inr rfl

theorem known {i o : Nat} (h : Refines (.known i o) b) : b = .known i o := by
  obtain h | rfl := h
  · cases h
  · rfl

theorem map {f : Effect → Effect} (hf : f .unknown = .unknown) (h : Refines a b) :
    Refines (f a) (f b) := by
  obtain rfl | rfl := h
  · exact .inl hf
  · exact .refl _

theorem map₂ {f : Effect → Effect → Effect} (hl : ∀ b, f .unknown b = .unknown)
    (hr : ∀ a, f a .unknown = .unknown) (ha : Refines a a') (hb : Refines b b') :
    Refines (f a b) (f a' b') := by
  obtain rfl | rfl := ha
  · exact .inl (hl b)
  · obtain rfl | rfl := hb
    · exact .inl (hr a)
    · exact .refl _

theorem andThen (ha : Refines a a') (hb : Refines b b') : Refines (a.andThen b) (a'.andThen b') :=
  map₂ (fun b => by cases b <;> rfl) (fun a => by cases a <;> rfl) ha hb

theorem ifElse (ha : Refines a a') (hb : Refines b b') :
    Refines (ifElseEffect a b) (ifElseEffect a' b') :=
  map₂ (fun b => by cases b <;> rfl) (fun a => by cases a <;> rfl) ha hb

theorem while_ (ha : Refines a a') (hb : Refines b b') :
    Refines (whileEffect a b) (whileEffect a' b') :=
  map₂ (fun b => by cases b <;> rfl) (fun a => by cases a <;> rfl) ha hb

theorem caseArm {c c' : Effect} (ha : Refines a a') (hb : Refines b b') (hc : Refines c c') :
    Refines (caseArmEffect a b c) (caseArmEffect a' b' c') := by
  unfold caseArmEffect
  exact (((Refines.refl _).andThen ha).andThen (.refl _)).andThen (.refl _) |>.andThen
    (((Refines.refl _).andThen hb).ifElse hc)

end Refines

section Tables
variable {env table : Dict String Effect} (h : Below env table) (wordTargets : Dict Span Target)
include h

theorem wordEffect_refines (name : String) (span : Span) :
    Refines (EffectEnv.wordEffect ⟨env, wordTargets⟩ name span)
      (EffectEnv.wordEffect ⟨table, wordTargets⟩ name span) := by
  unfold EffectEnv.wordEffect
  dsimp only
  cases wordTargets.lookup span with
  | none => exact .refl _
  | some t =>
    cases t with
    | userDefined n =>
      dsimp only
      cases hEnv : env.lookup (lower name) with
      | none => exact .inl rfl
      | some e =>
        cases e with
        | unknown => exact .inl rfl
        | known i o =>
          rw [h _ i o hEnv]
          exact .refl _
    | _ => exact .refl _

mutual
theorem effectOfExpr_refines : ∀ e : Expr,
    Refines (effectOfExpr ⟨env, wordTargets⟩ e) (effectOfExpr ⟨table, wordTargets⟩ e)
  | .lit l => by
    rw [effectOfExpr, effectOfExpr]
    exact .refl _
  | .wordRef name span => by
    rw [effectOfExpr, effectOfExpr]
    exact wordEffect_refines h wordTargets name span
  | .ifElse thenBody none _ => by
    rw [effectOfExpr, effectOfExpr]
    exact (inferSeq_refines thenBody).map rfl
  | .ifElse thenBody (some elseBody) _ => by
    rw [effectOfExpr, effectOfExpr]
    exact (Refines.refl _).andThen ((inferSeq_refines thenBody).ifElse (inferSeq_refines elseBody))
  | .beginUntil body _ => by
    rw [effectOfExpr, effectOfExpr]
    exact (inferSeq_refines body).map rfl
  | .beginWhileRepeat pred body _ => by
    rw [effectOfExpr, effectOfExpr]
    exact (inferSeq_refines pred).while_ (inferSeq_refines body)
  | .beginAgain _ _ => by
    rw [effectOfExpr, effectOfExpr]
    exact .refl _
  | .doLoop _ body _ _ => by
    rw [effectOfExpr, effectOfExpr]
    exact (inferSeq_refines body).map rfl
  | .caseOf arms none _ => by
    rw [effectOfExpr, effectOfExpr]
    exact inferArms_refines arms (.refl _)
  | .caseOf arms (some default) _ => by
    rw [effectOfExpr, effectOfExpr]
    exact inferArms_refines arms ((inferSeq_refines default).andThen (.refl _))
  | .tick _ _ => by
    rw [effectOfExpr, effectOfExpr]
    exact .refl _
  | .toValue _ _ => by
    rw [effectOfExpr, effectOfExpr]
    exact .refl _
  | .letForm _ _ => by
    rw [effectOfExpr, effectOfExpr]
    exact .refl _
  | .see _ _ => by
    rw [effectOfExpr, effectOfExpr]
    exact .refl _
  | .locals _ _ => by
    rw [effectOfExpr, effectOfExpr]
    exact .refl _

theorem inferArms_refines : ∀ (arms : List (CaseArm Expr)) {a b : Effect}, Refines a b →
    Refines (inferArms ⟨env, wordTargets⟩ a arms) (inferArms ⟨table, wordTargets⟩ b arms)
  | [], a, b, hBase => by
    rw [inferArms, inferArms]
    exact hBase
  | ⟨matchExpr, body, _⟩ :: arms, a, b, hBase => by
    rw [inferArms, inferArms]
    exact (inferSeq_refines matchExpr).caseArm (inferSeq_refines body) (inferArms_refines arms hBase)

theorem inferSeq_refines : ∀ es : List Expr,
    Refines (inferSeq ⟨env, wordTargets⟩ (.known 0 0) es)
      (inferSeq ⟨table, wordTargets⟩ (.known 0 0) es)
  | [] => by
    rw [inferSeq, inferSeq]
    exact .refl _
  | e :: es => by
    rw [inferSeq_zero_cons, inferSeq_zero_cons]
    exact (effectOfExpr_refines e).andThen (inferSeq_refines es)
end

end Tables

/-! The inference pass: what a definition is recorded with is inferred from entries that stay. -/

section Pass
variable (wordTargets : Dict Span Target)

def inferAll (inf : Inferred × List EffectError) (ds : List Definition) :
    Inferred × List EffectError := ds.foldl (inferDefinition wordTargets) inf

theorem inferDefinition_effects (inf : Inferred × List EffectError) (d : Definition) :
    (inferDefinition wordTargets inf d).1.userEffects = if d.effect.isNone then
      Dict.insert inf.1.userEffects (lower d.name)
        (inferBlock ⟨inf.1.userEffects, wordTargets⟩ d.body)
    else inf.1.userEffects := rfl

theorem inferDefinition_bodyEffects (inf : Inferred × List EffectError) (d : Definition) :
    (inferDefinition wordTargets inf d).1.bodyEffects =
      Dict.insert inf.1.bodyEffects (lower d.name)
        (inferBlock ⟨inf.1.userEffects, wordTargets⟩ d.body) := rfl

theorem inferAll_otherBody (inf : Inferred × List EffectError) {ds : List Definition} {k : String}
    (hk : ∀ d ∈ ds, lower d.name ≠ k) :
    (inferAll wordTargets inf ds).1.bodyEffects.lookup k = inf.1.bodyEffects.lookup k := by
  induction ds generalizing inf with
  | nil => rfl
  | cons d ds ih =>
    have hTail := ih (inferDefinition wordTargets inf d)
      fun d' hd' => hk d' (List.mem_cons_of_mem _ hd')
    refine hTail.trans ?_
    rw [inferDefinition_bodyEffects]
    exact Dict.lookup_insert_ne _ _ (hk d List.mem_cons_self)

theorem inferAll_other (inf : Inferred × List EffectError) {ds : List Definition} {k : String}
    (hk : ∀ d ∈ ds, d.effect = none → lower d.name ≠ k) :
    (inferAll wordTargets inf ds).1.userEffects.lookup k = inf.1.userEffects.lookup k := by
  induction ds generalizing inf with
  | nil => rfl
  | cons d ds ih =>
    have hTail := ih (inferDefinition wordTargets inf d)
      fun d' hd' => hk d' (List.mem_cons_of_mem _ hd')
    refine hTail.trans ?_
    rw [inferDefinition_effects]
    split
    · next hNone =>
      exact Dict.lookup_insert_ne _ _ (hk d List.mem_cons_self (Option.isNone_iff_eq_none.mp hNone))
    · rfl

/-- The names of definitions without a comment are not counted before their bodies are. -/
def Uncounted (table : Dict String Effect) (ds : List Definition) : Prop :=
  ∀ d ∈ ds, d.effect = none → ∀ i o, table.lookup (lower d.name) ≠ some (.known i o)

theorem inferAll_below (inf : Inferred × List EffectError) {ds : List Definition}
    (hNodup : (ds.map fun d => lower d.name).Nodup) (hFree : Uncounted inf.1.userEffects ds) :
    Below inf.1.userEffects (inferAll wordTargets inf ds).1.userEffects ∧
      ∀ d ∈ ds, d.effect = none → ∃ env,
        Below env (inferAll wordTargets inf ds).1.userEffects ∧
        (inferAll wordTargets inf ds).1.userEffects.lookup (lower d.name) =
          some (inferBlock ⟨env, wordTargets⟩ d.body) ∧
        (inferAll wordTargets inf ds).1.bodyEffects.lookup (lower d.name) =
          some (inferBlock ⟨env, wordTargets⟩ d.body) := by
  induction ds generalizing inf with
  | nil => exact ⟨Below.refl _, fun d hd => nomatch hd⟩
  | cons d ds ih =>
    obtain ⟨hHead, hRest⟩ := List.nodup_cons.mp hNodup
    have hApart : ∀ d' ∈ ds, lower d'.name ≠ lower d.name := by
      intro d' hd' hEq
      exact hHead (List.mem_map.mpr ⟨d', hd', hEq⟩)
    have hStep : Below inf.1.userEffects (inferDefinition wordTargets inf d).1.userEffects := by
      intro k i o hk
      rw [inferDefinition_effects]
      split
      · next hNone =>
        rw [Dict.lookup_insert_ne _ _ ?_]
        · exact hk
        · rintro rfl
          exact hFree d List.mem_cons_self (Option.isNone_iff_eq_none.mp hNone) i o hk
      · exact hk
    have hFree' : Uncounted (inferDefinition wordTargets inf d).1.userEffects ds := by
      intro d' hd' hNone i o hk
      rw [inferDefinition_effects] at hk
      split at hk
      · rw [Dict.lookup_insert_ne _ _ (Ne.symm (hApart d' hd'))] at hk
        exact hFree d' (List.mem_cons_of_mem _ hd') hNone i o hk
      · exact hFree d' (List.mem_cons_of_mem _ hd') hNone i o hk
    obtain ⟨hBelow, hEach⟩ := ih (inferDefinition wordTargets inf d) hRest hFree'
    refine ⟨hStep.trans hBelow, ?_⟩
    intro d' hd' hNone
    obtain rfl | hTail := List.mem_cons.mp hd'
    · refine ⟨inf.1.userEffects, hStep.trans hBelow, ?_, ?_⟩
      · have hStays := inferAll_other wordTargets (inferDefinition wordTargets inf d')
          (fun e he _ => hApart e he : ∀ e ∈ ds, e.effect = none → lower e.name ≠ lower d'.name)
        refine hStays.trans ?_
        rw [inferDefinition_effects, if_pos (by rw [hNone]; rfl)]
        exact Dict.lookup_insert_self _ _ _
      · refine (inferAll_otherBody wordTargets (inferDefinition wordTargets inf d') hApart).trans ?_
        rw [inferDefinition_bodyEffects]
        exact Dict.lookup_insert_self _ _ _
    · exact hEach d' hTail hNone

end Pass

section Compile
variable {host : Host} {fs : FileSystem} {source : String} {ctx : CompileContext} {synth : Nat}
variable {m : Sema} (h : (analyse host fs source ctx synth).result = .ok m)
include h

theorem names_nodup : (registered m.classSlots m.program.items).Nodup := by
  obtain ⟨own, items, docs, built, synth', -, -, hBuild, rfl⟩ := analyse_ok host fs h
  obtain ⟨words, targets, hRegister, -, rfl⟩ := build_ok hBuild
  have hNodup := (register_nodup hRegister).1
  rw [← registered, ← registered_lowerExit _ _ targets] at hNodup
  exact hNodup

/-- The table before the words of the classes are recorded. -/
def passEffects (m : Sema) (prior : Dict String Effect) : Dict String Effect :=
  (inferAll m.wordTargets (⟨seedEffects m.program.items prior, []⟩, [])
    (definitions m.program.items)).1.userEffects

theorem recorded_lookup {k : String} (hk : k ∉ synthNames m.classSlots m.program.items) :
    m.userEffects.lookup k = (passEffects m ctx.userEffects).lookup k := by
  obtain ⟨own, items, docs, built, synth', -, -, hBuild, rfl⟩ := analyse_ok host fs h
  obtain ⟨words, targets, -, -, rfl⟩ := build_ok hBuild
  exact ((writes_classSynthEffects _).foldl _ _ k).2 hk

theorem bodyEffects_pass : m.bodyEffects = (inferAll m.wordTargets
    (⟨seedEffects m.program.items ctx.userEffects, []⟩, []) (definitions m.program.items)).1.bodyEffects := by
  obtain ⟨own, items, docs, built, synth', -, -, hBuild, rfl⟩ := analyse_ok host fs h
  obtain ⟨words, targets, -, -, rfl⟩ := build_ok hBuild
  rfl

/-- The words of a class are recorded last, over entries of earlier compiles at most. -/
theorem passEffects_below (hKeeps : Below ctx.userEffects (ctx.update m).userEffects) :
    Below (passEffects m ctx.userEffects) (ctx.update m).userEffects := by
  intro k i o hk
  by_cases hSynth : k ∈ synthNames m.classSlots m.program.items
  · have hNoSeed : k ∉ seedNames m.program.items :=
      fun hSeed => seed_not_synth (names_nodup h) hSeed hSynth
    have hOther : ∀ e ∈ definitions m.program.items, e.effect = none → lower e.name ≠ k := by
      rintro e he - rfl
      exact hNoSeed ((definitionNames_sublist _).subset (List.mem_map_of_mem he))
    have hPrior : (passEffects m ctx.userEffects).lookup k = ctx.userEffects.lookup k :=
      (inferAll_other m.wordTargets _ hOther).trans
        ((writes_seedEffects.foldl _ m.program.items k).2 hNoSeed)
    exact hKeeps k i o (hPrior.symm.trans hk)
  · have hTable : (ctx.update m).userEffects.lookup k =
        (m.userEffects.lookup k).or (ctx.userEffects.lookup k) :=
      Dict.lookup_merge ctx.userEffects m.userEffects k
    rw [hTable, recorded_lookup h hSynth, hk]
    rfl

/-- What a compile records for a colon definition: the counts of its comment, or what is inferred of its
body from counts that the table keeps. -/
theorem definition_recorded (hKeeps : Below ctx.userEffects (ctx.update m).userEffects)
    {d : Definition} (hd : d ∈ definitions m.program.items) :
    (∀ se, d.effect = some se → m.userEffects.lookup (lower d.name) = some se.counts) ∧
    (d.effect = none → ∃ env, Below env (ctx.update m).userEffects ∧
      m.userEffects.lookup (lower d.name) = some (inferBlock ⟨env, m.wordTargets⟩ d.body) ∧
      m.bodyEffects.lookup (lower d.name) = some (inferBlock ⟨env, m.wordTargets⟩ d.body)) := by
  have hNodup := names_nodup h
  have hSeeds : (seedNames m.program.items).Nodup := (seedNames_sublist _ _).nodup hNodup
  have hNames := (definitionNames_sublist m.program.items).nodup hSeeds
  have hSeeded : ∀ e ∈ definitions m.program.items,
      (seedEffects m.program.items ctx.userEffects).lookup (lower e.name) =
        some (declaredEffect e.effect) :=
    fun e he => seedEffects_lookup hSeeds (mem_definitions.mp he) rfl _
  have hOwn : lower d.name ∉ synthNames m.classSlots m.program.items :=
    seed_not_synth hNodup ((definitionNames_sublist _).subset (List.mem_map_of_mem hd))
  have hUncounted : Uncounted (seedEffects m.program.items ctx.userEffects)
      (definitions m.program.items) := by
    intro e he hNone i o hCount
    rw [hSeeded e he, hNone] at hCount
    cases hCount
  constructor
  · intro se hSome
    rw [recorded_lookup h hOwn]
    have hOther : ∀ e ∈ definitions m.program.items, e.effect = none →
        lower e.name ≠ lower d.name := by
      intro e he hNone hEq
      have hSame : e = d := List.inj_on_of_nodup_map hNames he hd hEq
      rw [hSame, hSome] at hNone
      cases hNone
    refine (inferAll_other m.wordTargets _ hOther).trans ?_
    rw [hSeeded d hd, hSome]
    rfl
  · intro hNone
    obtain ⟨-, hInferred⟩ := inferAll_below m.wordTargets
      (⟨seedEffects m.program.items ctx.userEffects, []⟩, []) hNames hUncounted
    obtain ⟨env, hBelow, hLookup, hBody⟩ := hInferred d hd hNone
    refine ⟨env, hBelow.trans (passEffects_below h hKeeps), ?_, ?_⟩
    · rw [recorded_lookup h hOwn]
      exact hLookup
    · rw [bodyEffects_pass h]
      exact hBody

end Compile

end FactorForth.Correctness
