import FactorForth.Compiler.Occurrences
import FactorForth.Correctness.RecordedEffects
import FactorForth.Correctness.WordNames

/-! The words of a class: what is written for each of them, against what the compiler registers and
records for it, and what its callers infer. -/

namespace FactorForth.Correctness
open FactorForth.Library FactorForth.Compiler

/-- The words that a class brings into being beside its own name. -/
inductive ClassWord where
  | constructor
  | predicate
  | getter (slot : String)
  | setter (slot : String)
  | store (slot : String)
deriving DecidableEq, Repr

namespace ClassWord

def name (cls : String) : ClassWord → String
  | .constructor => "<" ++ cls ++ ">"
  | .predicate => cls ++ "?"
  | .getter s => cls ++ ">" ++ s
  | .setter s => s ++ ">>" ++ cls
  | .store s => cls ++ "." ++ s ++ "!"

/-- What the word takes and leaves. -/
def effect (slots : List String) : ClassWord → Effect
  | .constructor => .known slots.length 1
  | .predicate => .known 1 1
  | .getter _ => .known 1 1
  | .setter _ => .known 2 1
  | .store _ => .known 2 0

def slot? : ClassWord → Option String
  | .getter s => some s
  | .setter s => some s
  | .store s => some s
  | _ => none

/-- The words of a class with these slots. -/
def Of (slots : List String) (w : ClassWord) : Prop := ∀ s, w.slot? = some s → s ∈ slots

end ClassWord

/-! The four lists of the words of a class. -/

section Lists
variable {c : ClassDef} {slots : List String} {w : ClassWord} (hw : w.Of slots)
include hw

/-- A list with the constructor, the predicate and the words of every slot has all words. -/
theorem classWord_mem {cls : String} {names : List String} (hConstructor : "<" ++ cls ++ ">" ∈ names)
    (hPredicate : cls ++ "?" ∈ names)
    (hSlots : ∀ s ∈ slots, [cls ++ ">" ++ s, s ++ ">>" ++ cls, cls ++ "." ++ s ++ "!"] ⊆ names) :
    w.name cls ∈ names := by
  cases w with
  | constructor => exact hConstructor
  | predicate => exact hPredicate
  | getter s => exact hSlots s (hw s rfl) (.head _)
  | setter s => exact hSlots s (hw s rfl) (.tail _ (.head _))
  | store s => exact hSlots s (hw s rfl) (.tail _ (.tail _ (.head _)))

theorem classWord_introduced :
    w.name (lower c.name) ∈ ((classSynthesisedNames c slots).tail.map Prod.fst) := by
  refine classWord_mem hw (.head _) (.tail _ (.head _)) fun s hs n hn => ?_
  refine .tail _ (.tail _ ?_)
  show n ∈ List.map Prod.fst (List.flatMap _ slots)
  rw [List.map_flatMap]
  exact List.mem_flatMap.mpr ⟨s, hs, hn⟩

theorem classWord_listed : w.name (lower c.name) ∈ (classUserWords c slots).map Prod.fst := by
  refine classWord_mem hw (.head _) (.tail _ (.head _)) fun s hs n hn => ?_
  refine .tail _ (.tail _ ?_)
  show n ∈ List.map Prod.fst (List.flatMap _ slots)
  rw [List.map_flatMap]
  exact List.mem_flatMap.mpr ⟨s, hs, hn⟩

theorem classWord_seeded (hOther : w ≠ .predicate) :
    (w.name (lower c.name), w.effect slots) ∈ classSynthEffects (lower c.name) slots := by
  unfold classSynthEffects
  rw [List.mem_cons, List.mem_flatMap]
  cases w with
  | constructor => exact .inl rfl
  | predicate => exact absurd rfl hOther
  | getter s => exact .inr ⟨s, hw s rfl, .head _⟩
  | setter s => exact .inr ⟨s, hw s rfl, .tail _ (.head _)⟩
  | store s => exact .inr ⟨s, hw s rfl, .tail _ (.tail _ (.head _))⟩

end Lists

/-- What stands in the source for a word of a class. The predicate comes with the `TUPLE:`. -/
def Written (r : Sema) (c : ClassDef) (w : ClassWord) : Prop :=
  match w with
  | .predicate => ∃ superclass own, .tuple (mangled c.name) superclass own ∈ emitClass c r ∧
      factorUserName (w.name (lower c.name)) = mangled c.name ++ "?"
  | w => ∃ ann body, .colon (factorUserName (w.name (lower c.name))) ann body true ∈ emitClass c r ∧
      .known ann.inputs.length ann.outputs.length = w.effect (slotsOf r.classSlots c)

theorem written_iff (r : Sema) (c : ClassDef) {w : ClassWord} (hw : w.Of (slotsOf r.classSlots c)) :
    Written r c w ↔ (w = .predicate →
      factorUserName (lower c.name ++ "?") = factorUserName (lower c.name) ++ "?") := by
  have hSlot : ∀ s ∈ slotsOf r.classSlots c, ∀ l ∈ emitSlotWords (lower c.name) s,
      l ∈ emitClass c r := fun s hs l hl =>
    .tail _ (.tail _ (List.mem_flatMap.mpr ⟨s, hs, hl⟩))
  cases w with
  | predicate => exact ⟨fun ⟨_, _, _, h⟩ _ => h, fun h => ⟨_, _, .head _, h rfl⟩⟩
  | constructor => exact iff_of_true ⟨_, _, .tail _ (.head _), rfl⟩ nofun
  | getter s => exact iff_of_true ⟨_, _, hSlot s (hw s rfl) _ (.head _), rfl⟩ nofun
  | setter s => exact iff_of_true ⟨_, _, hSlot s (hw s rfl) _ (.tail _ (.head _)), rfl⟩ nofun
  | store s => exact iff_of_true ⟨_, _, hSlot s (hw s rfl) _ (.tail _ (.tail _ (.head _))), rfl⟩ nofun

/-! One compile. -/

/-- Distinct keys keep what they are inserted with. -/
theorem foldl_insert_lookup {pairs : List (String × Effect)} (hNodup : (pairs.map Prod.fst).Nodup)
    {k : String} {e : Effect} (hIn : (k, e) ∈ pairs) (d : Dict String Effect) :
    (pairs.foldl (fun d p => Dict.insert d p.1 p.2) d).lookup k = some e := by
  induction pairs generalizing d with
  | nil => cases hIn
  | cons p pairs ih =>
    obtain ⟨hHead, hRest⟩ := List.nodup_cons.mp hNodup
    rw [List.foldl_cons]
    rcases List.mem_cons.mp hIn with rfl | hBehind
    · have hOut : k ∉ pairs.flatMap fun p => [p.1] := by
        rwa [← List.map_eq_flatMap]
      refine ((Dict.writes_insert.foldl _ pairs k).2 hOut).trans ?_
      exact Dict.lookup_insert_self _ _ _
    · exact ih hRest hBehind _

/-- The words of a class in the order in which they are registered. -/
def wordNames (classSlots : Dict String (List String)) (c : ClassDef) : List String :=
  (classSynthesisedNames c (slotsOf classSlots c)).tail.map Prod.fst

theorem wordNames_cons (classSlots : Dict String (List String)) (c : ClassDef) :
    ∃ rest, wordNames classSlots c =
        ClassWord.constructor.name (lower c.name) :: ClassWord.predicate.name (lower c.name) :: rest ∧
      (classSynthEffects (lower c.name) (slotsOf classSlots c)).map Prod.fst =
        ClassWord.constructor.name (lower c.name) :: rest := by
  refine ⟨(slotsOf classSlots c).flatMap fun s => [lower c.name ++ ">" ++ s,
    s ++ ">>" ++ lower c.name, lower c.name ++ "." ++ s ++ "!"], ?_, ?_⟩
  · show _ :: _ :: (List.flatMap _ _).map Prod.fst = _
    rw [List.map_flatMap]
    rfl
  · show _ :: (List.flatMap _ _).map Prod.fst = _
    rw [List.map_flatMap]
    rfl

theorem wordNames_nodup {classSlots : Dict String (List String)} {items : List Item}
    (hNodup : (registered classSlots items).Nodup) :
    ((classes items).flatMap (wordNames classSlots)).Nodup := by
  have hSublist : (((classes items).flatMap (wordNames classSlots)).map lower).Sublist
      (registered classSlots items) := by
    clear hNodup
    induction items with
    | nil => exact List.Sublist.refl _
    | cons item items ih =>
      unfold registered classes at *
      rw [List.flatMap_cons, List.filterMap_cons, List.map_append]
      cases item with
      | class_ c =>
        rw [List.flatMap_cons, List.map_append]
        refine List.Sublist.append ?_ ih
        unfold wordNames
        rw [List.map_map]
        exact (List.tail_sublist _).map _
      | _ => exact ih.trans (List.sublist_append_right _ _)
  exact (hSublist.nodup hNodup).of_map _

section Names
variable {classSlots : Dict String (List String)} {items : List Item}
variable (hNodup : (registered classSlots items).Nodup)
include hNodup

theorem synthNames_nodup : (synthNames classSlots items).Nodup := by
  obtain ⟨hEach, hApart⟩ := List.nodup_flatMap.mp (wordNames_nodup hNodup)
  have hSub : ∀ c, ((classSynthEffects (lower c.name) (slotsOf classSlots c)).map Prod.fst).Sublist
      (wordNames classSlots c) := by
    intro c
    obtain ⟨rest, hWords, hSynth⟩ := wordNames_cons classSlots c
    rw [hWords, hSynth]
    exact List.Sublist.cons_cons _ (List.sublist_cons_self _ _)
  refine List.nodup_flatMap.mpr ⟨fun c hc => (hSub c).nodup (hEach c hc), hApart.imp ?_⟩
  exact fun {c c'} hOff k hk hk' => hOff ((hSub c).subset hk) ((hSub c').subset hk')

theorem predicate_not_synth {c : ClassDef} (hc : c ∈ classes items) :
    ClassWord.predicate.name (lower c.name) ∉ synthNames classSlots items := by
  intro hIn
  obtain ⟨hEach, hApart⟩ := List.nodup_flatMap.mp (wordNames_nodup hNodup)
  obtain ⟨c', hc', hk⟩ := List.mem_flatMap.mp hIn
  obtain ⟨rest', hWords', hSynth'⟩ := wordNames_cons classSlots c'
  obtain ⟨rest, hWords, -⟩ := wordNames_cons classSlots c
  by_cases hSame : c = c'
  · subst hSame
    have hOwn := hEach c hc
    rw [hWords'] at hOwn
    rw [hSynth'] at hk
    rcases List.mem_cons.mp hk with hEq | hRest
    · exact (List.nodup_cons.mp hOwn).1 (by rw [← hEq]; exact List.mem_cons_self)
    · exact (List.nodup_cons.mp (List.nodup_cons.mp hOwn).2).1 hRest
  · have hSymm : Std.Symm (Function.onFun List.Disjoint (wordNames classSlots)) :=
      ⟨fun _ _ h => h.symm⟩
    have hOff := hApart.forall hc hc' hSame
    refine @hOff (ClassWord.predicate.name (lower c.name)) ?_ ?_
    · rw [hWords]
      exact List.mem_cons_of_mem _ List.mem_cons_self
    · rw [hWords']
      rw [hSynth'] at hk
      rcases List.mem_cons.mp hk with hEq | hRest
      · rw [hEq]
        exact List.mem_cons_self
      · exact List.mem_cons_of_mem _ (List.mem_cons_of_mem _ hRest)

end Names

/-- While the definitions are inferred, a name that no item seeds has the effect of earlier compiles. -/
theorem prior_effect {m : Sema} {prior : Dict String Effect} {k : String}
    (hSeed : k ∉ seedNames m.program.items) {ds : List Definition}
    (hds : ds ⊆ definitions m.program.items) :
    (inferAll m.wordTargets (⟨seedEffects m.program.items prior, []⟩, []) ds).1.userEffects.lookup k =
      prior.lookup k := by
  have hOther : ∀ d ∈ ds, d.effect = none → lower d.name ≠ k := by
    rintro d hd - rfl
    exact hSeed ((definitionNames_sublist _).subset (List.mem_map_of_mem (hds hd)))
  exact (inferAll_other m.wordTargets _ hOther).trans
    ((writes_seedEffects.foldl _ m.program.items _).2 hSeed)

section Compile
variable {host : Host} {fs : FileSystem} {source : String} {ctx : CompileContext} {synth : Nat}
variable {m : Sema} (h : (analyse host fs source ctx synth).result = .ok m)
variable {c : ClassDef} (hc : c ∈ classes m.program.items) {w : ClassWord}
include h hc

theorem classWord_not_seeded (hw : w.Of (slotsOf m.classSlots c)) :
    w.name (lower c.name) ∉ seedNames m.program.items := by
  refine seed_not_classWord (names_nodup h) hc ?_
  obtain ⟨p, hp, hEq⟩ := List.mem_map.mp (classWord_introduced hw)
  exact List.mem_map.mpr ⟨p, hp, congrArg lower hEq⟩

theorem classWord_recorded (hw : w.Of (slotsOf m.classSlots c)) (hOther : w ≠ .predicate) :
    m.userEffects.lookup (w.name (lower c.name)) = some (w.effect (slotsOf m.classSlots c)) := by
  have hNames := synthNames_nodup (names_nodup h)
  obtain ⟨resolved, docs, rfl⟩ := analyse_built host fs h
  show (seedClassSynthEffects _ _ _).lookup _ = _
  unfold seedClassSynthEffects
  rw [← List.foldl_flatMap]
  refine foldl_insert_lookup ?_ (List.mem_flatMap.mpr ⟨c, hc, classWord_seeded hw hOther⟩) _
  rw [List.map_flatMap]
  exact hNames

theorem predicate_recorded :
    m.userEffects.lookup (ClassWord.predicate.name (lower c.name)) =
      ctx.userEffects.lookup (ClassWord.predicate.name (lower c.name)) := by
  have hNodup := names_nodup h
  refine (built_userEffects h _).2 fun hIn => ?_
  rcases List.mem_append.mp hIn with hSeed | hSynth
  · exact @classWord_not_seeded _ _ _ _ _ _ h _ hc .predicate nofun hSeed
  · exact predicate_not_synth hNodup hc hSynth

end Compile

/-! Callers. -/

/-- A reference in a colon definition that is bound to a user's word of this name. -/
def CallsIn (m : Sema) (d : Definition) (k : String) (n : String) (span : Span) : Prop :=
  .wordRef n span ∈ leaves d.body ∧ lower n = k ∧
    ∃ t, m.wordTargets.lookup span = some (.userDefined t)

/-- The effects that the colon definition behind `before` is inferred from. -/
def effectsBehind (m : Sema) (prior : Dict String Effect) (before : List Definition) : EffectEnv :=
  ⟨(inferAll m.wordTargets (⟨seedEffects m.program.items prior, []⟩, []) before).1.userEffects,
    m.wordTargets⟩

/-- Every colon definition of the compile that calls the word infers this effect of it. -/
def Infers (prior : Dict String Effect) (m : Sema) (k : String) (e : Effect) : Prop :=
  ∀ before d after, definitions m.program.items = before ++ d :: after →
    ∀ n span, CallsIn m d k n span →
      effectOfExpr (effectsBehind m prior before) (.wordRef n span) = e

/-- A colon definition of the compile calls the word. -/
def Called (m : Sema) (k : String) : Prop :=
  ∃ d ∈ definitions m.program.items, ∃ n span, CallsIn m d k n span

theorem infers_iff {m : Sema} {prior : Dict String Effect} {k : String} {i o : Nat}
    (hSeed : k ∉ seedNames m.program.items) :
    Infers prior m k (.known i o) ↔ (Called m k → prior.lookup k = some (.known i o)) := by
  have hSees : ∀ before d after, definitions m.program.items = before ++ d :: after →
      ∀ n span, CallsIn m d k n span →
        effectOfExpr (effectsBehind m prior before) (.wordRef n span) = (prior.lookup k).getD .unknown := by
    rintro before d after hSplit n span ⟨-, rfl, t, hTarget⟩
    have hHere : (effectsBehind m prior before).wordTargets.lookup span = some (.userDefined t) := hTarget
    rw [effectOfExpr, EffectEnv.wordEffect, hHere]
    have hSub : before ⊆ definitions m.program.items := by
      rw [hSplit]
      exact List.subset_append_left _ _
    exact congrArg (fun e => e.getD .unknown) (@prior_effect m prior _ hSeed _ hSub)
  constructor
  · rintro hInfers ⟨d, hd, n, span, hCalls⟩
    obtain ⟨before, after, hSplit⟩ := List.append_of_mem hd
    have hSeen := hInfers before d after hSplit n span hCalls
    rw [hSees before d after hSplit n span hCalls] at hSeen
    cases hLookup : prior.lookup k with
    | none =>
      rw [hLookup] at hSeen
      cases hSeen
    | some e =>
      rw [hLookup] at hSeen
      exact congrArg some hSeen
  · intro hRecorded before d after hSplit n span hCalls
    have hd : d ∈ definitions m.program.items := by
      rw [hSplit]
      simp
    rw [hSees before d after hSplit n span hCalls, hRecorded ⟨d, hd, n, span, hCalls⟩]
    rfl

/-! Sessions. -/

section Session
variable (host : Host) (fs : FileSystem)

def Session.run (s : Session) (sources : List String) : Session :=
  sources.foldl (Session.eval host fs) s

/-- No compile of the run that succeeds defines the name. -/
def NotRedefined (k : String) : Session → List String → Prop
  | _, [] => True
  | s, source :: sources =>
    (∀ m, (analyse host fs source s.ctx s.counters.synth).result = .ok m → definesWord m k = false) ∧
      NotRedefined k (s.eval host fs source) sources

variable {host fs}

theorem eval_error {s : Session} {source : String} {e : String}
    (h : (analyse host fs source s.ctx s.counters.synth).result = .error e) :
    ∃ included, (s.eval host fs source).ctx = { s.ctx with included } := by
  refine ⟨(analyse host fs source s.ctx s.counters.synth).included, ?_⟩
  unfold Session.eval compileInContextWithDiagnostics
  dsimp only
  rw [h]

theorem eval_ok {s : Session} {source : String} {m : Sema}
    (h : (analyse host fs source s.ctx s.counters.synth).result = .ok m) :
    ∃ included, (s.eval host fs source).ctx = { s.ctx.update m with included } := by
  refine ⟨(analyse host fs source s.ctx s.counters.synth).included, ?_⟩
  unfold Session.eval compileInContextWithDiagnostics
  dsimp only
  rw [h]
  rfl

/-- A name that is not defined again keeps its effect, and stays a word of the session. -/
theorem run_kept {k : String} {s : Session} {sources : List String} (h : NotRedefined host fs k s sources) :
    (s.run host fs sources).ctx.userEffects.lookup k = s.ctx.userEffects.lookup k ∧
      (Dict.contains s.ctx.userWords k = true →
        Dict.contains (s.run host fs sources).ctx.userWords k = true) := by
  induction sources generalizing s with
  | nil => exact ⟨rfl, fun hWord => hWord⟩
  | cons source sources ih =>
    obtain ⟨hHere, hLater⟩ := h
    obtain ⟨hEffect, hWords⟩ := ih hLater
    show (Session.run host fs (s.eval host fs source) sources).ctx.userEffects.lookup k = _ ∧
      (_ → Dict.contains (Session.run host fs (s.eval host fs source) sources).ctx.userWords k = true)
    cases hRun : (analyse host fs source s.ctx s.counters.synth).result with
    | error e =>
      obtain ⟨included, hCtx⟩ := eval_error hRun
      rw [hEffect, hCtx]
      refine ⟨rfl, fun hWord => hWords ?_⟩
      rw [hCtx]
      exact hWord
    | ok m =>
      obtain ⟨included, hCtx⟩ := eval_ok hRun
      have hRole := congrArg Role.effect (roleIn_other hRun (hHere m hRun))
      rw [hEffect, hCtx]
      refine ⟨hRole, fun hWord => hWords ?_⟩
      rw [hCtx]
      show Dict.contains (Dict.merge _ _) k = true
      rw [Dict.contains_merge, hWord, Bool.or_true]

/-! The slots of a session's classes are kept in lower case. -/

def LowerSlots (classes : Dict String (List String)) : Prop :=
  ∀ k slots, classes.lookup k = some slots → ∀ s ∈ slots, lower s = s

theorem LowerSlots.compute {prior : Dict String (List String)} (h : LowerSlots prior) (prog : Program) :
    LowerSlots (computeClassSlots prog prior) := by
  obtain ⟨items⟩ := prog
  unfold computeClassSlots
  induction items generalizing prior with
  | nil => exact h
  | cons item items ih =>
    refine ih ?_
    cases item with
    | class_ c =>
      intro k slots hSlots s hs
      dsimp only at hSlots
      rw [Dict.lookup_insert] at hSlots
      split at hSlots
      · obtain rfl := Option.some.inj hSlots
        rcases List.mem_append.mp hs with hInherited | hOwn
        · split at hInherited
          · rename_i parent hParent
            cases hLookup : prior.lookup (lower parent) with
            | none =>
              rw [hLookup] at hInherited
              cases hInherited
            | some inherited =>
              rw [hLookup] at hInherited
              exact h _ _ hLookup s hInherited
          · cases hInherited
        · obtain ⟨own, -, rfl⟩ := List.mem_map.mp hOwn
          exact lower_idem _
      · exact h k slots hSlots s hs
    | _ => exact h

theorem run_lowerSlots {s : Session} (h : LowerSlots s.ctx.classes) (sources : List String) :
    LowerSlots (s.run host fs sources).ctx.classes := by
  induction sources generalizing s with
  | nil => exact h
  | cons source sources ih =>
    refine ih (s := s.eval host fs source) ?_
    cases hRun : (analyse host fs source s.ctx s.counters.synth).result with
    | error e =>
      obtain ⟨included, hCtx⟩ := eval_error hRun
      rw [hCtx]
      exact h
    | ok m =>
      obtain ⟨included, hCtx⟩ := eval_ok hRun
      obtain ⟨resolved, docs, rfl⟩ := analyse_built host fs hRun
      rw [hCtx]
      intro k slots hSlots
      have hMerged : ((computeClassSlots resolved.program s.ctx.classes).lookup k).or
          (s.ctx.classes.lookup k) = some slots := by
        rw [← Dict.lookup_merge]
        exact hSlots
      rcases Option.or_eq_some_iff.mp hMerged with hNew | ⟨-, hOld⟩
      · exact h.compute _ k slots hNew
      · exact h k slots hOld

end Session

theorem lower_append (a b : String) : lower (a ++ b) = lower a ++ lower b := by
  simp [lower, String.toList_append, String.ofList_append]

theorem classWord_lower {cls : String} (hCls : lower cls = cls) {w : ClassWord}
    (hSlot : ∀ s, w.slot? = some s → lower s = s) : lower (w.name cls) = w.name cls := by
  cases w with
  | constructor =>
    show lower ("<" ++ cls ++ ">") = _
    rw [lower_append, lower_append, hCls]
    rfl
  | predicate =>
    show lower (cls ++ "?") = _
    rw [lower_append, hCls]
    rfl
  | getter s =>
    show lower (cls ++ ">" ++ s) = _
    rw [lower_append, lower_append, hCls, hSlot s rfl]
    rfl
  | setter s =>
    show lower (s ++ ">>" ++ cls) = _
    rw [lower_append, lower_append, hCls, hSlot s rfl]
    rfl
  | store s =>
    show lower (cls ++ "." ++ s ++ "!") = _
    rw [lower_append, lower_append, lower_append, hCls, hSlot s rfl]
    rfl

theorem register_contains {names : List (String × Span)} {words words' : Dict String Span}
    (h : register names words = .ok words') :
    (∀ p ∈ names, Dict.contains words' (lower p.1) = true) ∧
      ∀ k, Dict.contains words k = true → Dict.contains words' k = true := by
  induction names generalizing words with
  | nil =>
    obtain rfl := Except.ok.inj h
    exact ⟨fun p hp => (nomatch hp), fun k hk => hk⟩
  | cons p names ih =>
    obtain ⟨name, span⟩ := p
    rw [register] at h
    split at h
    · cases h
    · obtain ⟨hNames, hKept⟩ := ih h
      have hOwn : Dict.contains words' (lower name) = true := by
        apply hKept
        rw [Dict.contains_insert, decide_eq_true rfl, Bool.true_or]
      refine ⟨fun p hp => ?_, fun k hk => hKept k ?_⟩
      · rcases List.mem_cons.mp hp with rfl | hLater
        · exact hOwn
        · exact hNames p hLater
      · rw [Dict.contains_insert, hk, Bool.or_true]

/-- A reference that is spelled like the word is bound to it, unless it names a local. -/
def Resolves (ctx : CompileContext) (m : Sema) (k : String) : Prop :=
  ∃ words, register (m.program.items.flatMap (Item.introduced m.classSlots)) [] = .ok words ∧
    ∀ values locals n, lower n = k → k ∉ locals →
      Scope.target ⟨Dict.merge ctx.userWords words, values, locals⟩ n =
        some (.userDefined (factorUserName k))

section Compile
variable {host : Host} {fs : FileSystem} {source : String} {ctx : CompileContext} {synth : Nat}
variable {m : Sema} (h : (analyse host fs source ctx synth).result = .ok m)
variable {c : ClassDef} (hc : c ∈ classes m.program.items) {w : ClassWord}
include h hc

theorem classWord_resolves (hw : w.Of (slotsOf m.classSlots c))
    (hLower : lower (w.name (lower c.name)) = w.name (lower c.name)) :
    Resolves ctx m (w.name (lower c.name)) := by
  have hRegister : ∃ words,
      register (m.program.items.flatMap (Item.introduced m.classSlots)) [] = .ok words := by
    obtain ⟨own, items, docs, built, synth', -, -, hBuild, rfl⟩ := analyse_ok host fs h
    obtain ⟨words, targets, hRegister, -, rfl⟩ := build_ok hBuild
    refine ⟨words, ?_⟩
    rw [← hRegister]
    show register (((prepare ⟨items⟩ ctx.prior.templates synth).1.1.items.map
      (Item.lowerExit targets)).flatMap _) [] = _
    rw [List.flatMap_map]
    congr 2
    funext item
    cases item <;> rfl
  obtain ⟨words, hWords⟩ := hRegister
  refine ⟨words, hWords, fun values locals n hn hLocal => ?_⟩
  have hKnown : Dict.contains words (w.name (lower c.name)) = true := by
    obtain ⟨p, hp, hEq⟩ := List.mem_map.mp (classWord_introduced hw)
    have hIn := (register_contains hWords).1 p
      (List.mem_flatMap.mpr ⟨_, mem_classes.mp hc, List.mem_of_mem_tail hp⟩)
    rwa [hEq, hLower] at hIn
  unfold Scope.target
  dsimp only
  rw [hn, if_neg (by simpa using hLocal), if_pos (by rw [Dict.contains_merge, hKnown]; rfl)]

omit hc in
theorem slotsOf_lower (hSlots : LowerSlots ctx.classes) (c : ClassDef) :
    ∀ s ∈ slotsOf m.classSlots c, lower s = s := by
  obtain ⟨resolved, docs, rfl⟩ := analyse_built host fs h
  intro s hs
  unfold slotsOf at hs
  cases hLookup : (computeClassSlots resolved.program ctx.classes).lookup (lower c.name) with
  | none =>
    have hNone : s ∈ (none : Option (List String)).getD [] := hLookup ▸ hs
    cases hNone
  | some slots =>
    have hSome : s ∈ (some slots).getD [] := hLookup ▸ hs
    exact hSlots.compute _ _ slots hLookup s hSome

theorem classWord_defined (hw : w.Of (slotsOf m.classSlots c)) :
    definesWord m (w.name (lower c.name)) = true := by
  obtain ⟨resolved, docs, rfl⟩ := analyse_built host fs h
  let items := resolved.program.items.map (Item.lowerExit resolved.wordTargets)
  let classSlots := computeClassSlots resolved.program ctx.classes
  have hKeys := (writes_classUserWords classSlots).foldl
    ((items.filterMap Item.userWord).foldl (fun words w => Dict.insert words (lower w.name) w) [])
    (classes items) (w.name (lower c.name))
  exact hKeys.1 (List.mem_flatMap.mpr ⟨c, hc, classWord_listed hw⟩)

end Compile

/-- What is asked of a word of a class: it resolves, its definition has the counts recorded for it,
callers in its own compile infer them, and so do callers in every later compile until the name is
defined again. -/
structure Consistent (host : Host) (fs : FileSystem) (s : Session) (source : String) (m : Sema)
    (c : ClassDef) (w : ClassWord) : Prop where
  resolves : Resolves s.ctx m (w.name (lower c.name))
  written : Written m c w
  recorded : m.userEffects.lookup (w.name (lower c.name)) = some (w.effect (slotsOf m.classSlots c))
  inferred : Infers s.ctx.userEffects m (w.name (lower c.name)) (w.effect (slotsOf m.classSlots c))
  later : ∀ sources, NotRedefined host fs (w.name (lower c.name)) (s.eval host fs source) sources →
    let s' := (s.eval host fs source).run host fs sources
    Dict.contains s'.ctx.userWords (w.name (lower c.name)) = true ∧
      s'.ctx.userEffects.lookup (w.name (lower c.name)) = some (w.effect (slotsOf m.classSlots c)) ∧
      ∀ source' m', (analyse host fs source' s'.ctx s'.counters.synth).result = .ok m' →
        definesWord m' (w.name (lower c.name)) = false →
        Infers s'.ctx.userEffects m' (w.name (lower c.name)) (w.effect (slotsOf m.classSlots c))

theorem effect_known (slots : List String) (w : ClassWord) : ∃ i o, w.effect slots = .known i o := by
  cases w <;> exact ⟨_, _, rfl⟩

/-- A word of a class is consistent exactly when neither its class's compile calls it nor it is the
predicate, or else an earlier compile has left its effect under its name. -/
theorem class_words_consistent (host : Host) (fs : FileSystem) (before : List String)
    (counters : Counters) (source : String) {m : Sema}
    (h : let s := (Session.start counters).run host fs before
      (analyse host fs source s.ctx s.counters.synth).result = .ok m)
    {c : ClassDef} (hc : c ∈ classes m.program.items) {w : ClassWord}
    (hw : w.Of (slotsOf m.classSlots c)) :
    Consistent host fs ((Session.start counters).run host fs before) source m c w ↔
      (w = .predicate →
        factorUserName (lower c.name ++ "?") = factorUserName (lower c.name) ++ "?") ∧
      (w = .predicate ∨ Called m (w.name (lower c.name)) →
        ((Session.start counters).run host fs before).ctx.userEffects.lookup (w.name (lower c.name)) =
          some (w.effect (slotsOf m.classSlots c))) := by
  let s := (Session.start counters).run host fs before
  let k := w.name (lower c.name)
  have hCompile : (analyse host fs source s.ctx s.counters.synth).result = .ok m := h
  obtain ⟨i, o, hEffect⟩ := effect_known (slotsOf m.classSlots c) w
  have hInfers := @infers_iff m s.ctx.userEffects k i o (classWord_not_seeded hCompile hc hw)
  rw [← hEffect] at hInfers
  constructor
  · intro hConsistent
    refine ⟨(written_iff m c hw).mp hConsistent.written, ?_⟩
    rintro (rfl | hCalled)
    · rw [← hConsistent.recorded]
      exact (predicate_recorded hCompile hc).symm
    · exact hInfers.mp hConsistent.inferred hCalled
  · rintro ⟨hWritten, hEarlier⟩
    have hRecorded : m.userEffects.lookup k = some (w.effect (slotsOf m.classSlots c)) := by
      by_cases hPredicate : w = .predicate
      · subst hPredicate
        exact (predicate_recorded hCompile hc).trans (hEarlier (.inl rfl))
      · exact classWord_recorded hCompile hc hw hPredicate
    refine ⟨classWord_resolves hCompile hc hw ?_, (written_iff m c hw).mpr hWritten, hRecorded,
      hInfers.mpr fun hCalled => hEarlier (.inr hCalled), fun sources hKept => ?_⟩
    · refine classWord_lower (lower_idem _) fun slot hSlot => ?_
      have hStart : LowerSlots (Session.start counters).ctx.classes := by
        intro k slots hSome
        cases hSome
      exact slotsOf_lower hCompile (run_lowerSlots hStart before) c slot (hw slot hSlot)
    · obtain ⟨included, hCtx⟩ := eval_ok hCompile
      obtain ⟨hKeptEffect, hKeptWord⟩ := run_kept hKept
      have hWord : Dict.contains (s.eval host fs source).ctx.userWords k = true := by
        rw [hCtx]
        show Dict.contains (Dict.merge _ _) k = true
        have hDefined : Dict.contains m.userWords k = true := classWord_defined hCompile hc hw
        have hMapped := Dict.contains_map (fun _ (word : UserWord) => word.defSpan) m.userWords k
        rw [Dict.contains_merge, hMapped, hDefined, Bool.true_or]
      have hHeld : (s.eval host fs source).ctx.userEffects.lookup k =
          some (w.effect (slotsOf m.classSlots c)) := by
        rw [hCtx]
        show (Dict.merge _ _).lookup k = _
        rw [Dict.lookup_merge, hRecorded]
        rfl
      refine ⟨hKeptWord hWord, hKeptEffect.trans hHeld, fun source' m' h' hUndefined => ?_⟩
      have hNotSeeded : k ∉ seedNames m'.program.items := fun hSeed =>
        (built_undefined h' hUndefined).2.2.2 (List.mem_append_left _ hSeed)
      rw [hEffect]
      refine (infers_iff hNotSeeded).mpr fun _ => ?_
      rw [← hEffect]
      exact hKeptEffect.trans hHeld

def oneSlot : String := "class: p slot: x ;"

/-- The getter of a class that no word of its own compile reads from. -/
theorem class_words_consistent_getter :
    ∃ m c, (analyse noLet noFiles oneSlot .new Counters.start.synth).result = .ok m ∧
      c ∈ classes m.program.items ∧
      Consistent noLet noFiles (.start .start) oneSlot m c (.getter "x") := by
  have hRun : (analyse noLet noFiles oneSlot .new Counters.start.synth).result.toOption.map (fun m =>
      ((classes m.program.items).any fun c => (slotsOf m.classSlots c).contains "x") &&
        (definitions m.program.items).isEmpty) = some true := by decide +kernel
  obtain ⟨m, hSome, hFound⟩ := Option.map_eq_some_iff.mp hRun
  have hCompile := ok_of_toOption hSome
  simp only [Bool.and_eq_true, List.any_eq_true, List.contains_iff_mem, List.isEmpty_iff] at hFound
  obtain ⟨⟨c, hc, hx⟩, hNone⟩ := hFound
  have hOf : (ClassWord.getter "x").Of (slotsOf m.classSlots c) := by
    intro s hs
    obtain rfl := Option.some.inj hs
    exact hx
  refine ⟨m, c, hCompile, hc,
    (class_words_consistent noLet noFiles [] .start oneSlot hCompile hc hOf).mpr ⟨nofun, ?_⟩⟩
  rintro (hPredicate | ⟨d, hd, -⟩)
  · cases hPredicate
  · rw [hNone] at hd
    cases hd

/-- A reference to the word that is bound to a user's word, as a check that runs. -/
def callsUserWord (m : Sema) (k : String) : Expr → Bool
  | .wordRef n span => lower n == k && match m.wordTargets.lookup span with
    | some (.userDefined _) => true
    | _ => false
  | _ => false

theorem called_of_any {m : Sema} {k : String}
    (h : ((definitions m.program.items).any fun d => (leaves d.body).any (callsUserWord m k)) = true) :
    Called m k := by
  obtain ⟨d, hd, hBody⟩ := List.any_eq_true.mp h
  obtain ⟨e, he, hCalls⟩ := List.any_eq_true.mp hBody
  refine ⟨d, hd, ?_⟩
  cases e with
  | wordRef n span =>
    obtain ⟨hName, hTarget⟩ := Bool.and_eq_true_iff.mp hCalls
    refine ⟨n, span, he, beq_iff_eq.mp hName, ?_⟩
    split at hTarget
    · exact ⟨_, by assumption⟩
    · cases hTarget
  | _ => cases hCalls

/-- The predicate has no recorded effect, and a word of the same compile infers nothing of a getter. -/
theorem class_words_not_consistent :
    (¬ ∀ source m c, (analyse noLet noFiles source .new Counters.start.synth).result = .ok m →
      c ∈ classes m.program.items → Consistent noLet noFiles (.start .start) source m c .predicate) ∧
    ¬ ∀ source m c s, (analyse noLet noFiles source .new Counters.start.synth).result = .ok m →
      c ∈ classes m.program.items → s ∈ slotsOf m.classSlots c →
      Consistent noLet noFiles (.start .start) source m c (.getter s) := by
  constructor
  · intro hAll
    have hRun : (analyse noLet noFiles oneSlot .new Counters.start.synth).result.toOption.map (fun m =>
        ((classes m.program.items).any fun c => c.name == "p") &&
          (m.userEffects.lookup "p?").isNone) = some true := by decide +kernel
    obtain ⟨m, hSome, hFound⟩ := Option.map_eq_some_iff.mp hRun
    simp only [Bool.and_eq_true, List.any_eq_true, beq_iff_eq, Option.isNone_iff_eq_none] at hFound
    obtain ⟨⟨c, hc, hName⟩, hNone⟩ := hFound
    have hRecorded := (hAll _ m c (ok_of_toOption hSome) hc).recorded
    rw [hName, show ClassWord.predicate.name (lower "p") = "p?" by decide, hNone] at hRecorded
    cases hRecorded
  · intro hAll
    have hRun : (analyse noLet noFiles "class: p slot: x ; : getx p>x ;" .new
        Counters.start.synth).result.toOption.map (fun m =>
          ((classes m.program.items).any fun c => c.name == "p" && (slotsOf m.classSlots c).contains "x") &&
            (definitions m.program.items).any fun d =>
              (leaves d.body).any (callsUserWord m "p>x")) = some true := by decide +kernel
    obtain ⟨m, hSome, hFound⟩ := Option.map_eq_some_iff.mp hRun
    obtain ⟨hClass, hCalls⟩ := Bool.and_eq_true_iff.mp hFound
    simp only [List.any_eq_true, Bool.and_eq_true, beq_iff_eq, List.contains_iff_mem] at hClass
    obtain ⟨c, hc, hName, hx⟩ := hClass
    have hCompile := ok_of_toOption hSome
    have hOf : (ClassWord.getter "x").Of (slotsOf m.classSlots c) := by
      intro s hs
      obtain rfl := Option.some.inj hs
      exact hx
    have hInferred := (hAll _ m c "x" hCompile hc hx).inferred
    have hWord : (ClassWord.getter "x").name (lower c.name) = "p>x" := by
      rw [hName]
      decide
    have hCalled : Called m ((ClassWord.getter "x").name (lower c.name)) := by
      rw [hWord]
      exact called_of_any hCalls
    have hEarlier := (infers_iff (classWord_not_seeded hCompile hc hOf)).mp hInferred hCalled
    cases hEarlier

end FactorForth.Correctness
