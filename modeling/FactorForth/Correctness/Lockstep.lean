import FactorForth.Correctness.DefinitionOrder
import FactorForth.Correctness.LatestDefinition

/-! The two dictionaries of the console: the words that the compile context knows, against the words that
the VM of the session has taken from the emitted source. -/

namespace FactorForth.Correctness
open FactorForth.Library FactorForth.Compiler

/-- A compile whose source went to the VM, and the number of its lines in front of the first error. -/
structure Loaded where
  compiled : Eval
  accepted : Nat

/-- The words that the VM took from the source. -/
def Loaded.words (l : Loaded) : List String :=
  (l.compiled.ir.take l.accepted).flatMap Line.defines

/-- The compile whose definition of a name the VM holds; the latest stands first. -/
def heldBy (vm : List Loaded) (k : String) : Option Loaded :=
  vm.find? fun l => l.words.contains (factorUserName k)

/-- The effect of that definition, as its own compile has it. -/
def heldEffect (vm : List Loaded) (k : String) : Option Effect :=
  (heldBy vm k).bind fun l => (roleFrom l.compiled.sema k).effect

/-! The drain loop. -/

/-- An eval comes with what the VM makes of it: how many lines it accepts, if the source reaches it, and
whether the session dies. -/
inductive DrainEvent where
  | evalBuffer (source : String) (accepted : Nat) (dies : Bool)
  | replSubmit (source : String) (accepted : Nat) (dies : Bool)
  | forthInterrupt
  | forthRestart
  /-- A panic ends the loop, and the worker enters it again with a new session. -/
  | crash

structure Drain where
  ctx : CompileContext
  counters : Counters
  vm : List Loaded

def Drain.start (counters : Counters) : Drain := ⟨.new, counters, []⟩

section
variable (host : Host) (fs : FileSystem)

/-- The context is updated by the compile, before the VM sees the source. -/
def handleEval (d : Drain) (source : String) (accepted : Nat) : Drain :=
  let compiled := compileInContextWithDiagnostics host fs source d.ctx d.counters
  ⟨compiled.context, compiled.counters,
    ((compileEval host fs source d.ctx d.counters).map fun e => ⟨e, accepted⟩).toList ++ d.vm⟩

/-- A new session behind a dead one starts from the image; the context stays. -/
def reboot (d : Drain) (dies : Bool) : Drain := if dies then { d with vm := [] } else d

def drainStep (d : Drain) : DrainEvent → Drain
  | .evalBuffer source accepted dies => reboot (handleEval host fs d source accepted) dies
  | .replSubmit source accepted dies => reboot (handleEval host fs d source accepted) dies
  | .forthInterrupt => d
  | .forthRestart => .start d.counters
  | .crash => .start d.counters

end

/-- Every name of the context is a word of the VM, with the effect of the definition held there. -/
def InLockstep (d : Drain) : Prop :=
  ∀ k, Dict.contains d.ctx.userWords k = true →
    (heldBy d.vm k).isSome = true ∧ d.ctx.userEffects.lookup k = heldEffect d.vm k

/-! The words of a compile. -/

/-- No template is among the items: a template is a name of the compiler alone. The predicate of a class
is spelled by the class, which differs where the name of the class is respelled. -/
structure WordsOnly (items : List Item) : Prop where
  template : ∀ t, Item.template t ∉ items
  class_ : ∀ c ∈ classes items, factorUserName (lower c.name) ++ "?" =
    factorUserName (lower c.name ++ "?")

/-- A name that a compile records is one of its items, or a word of one of its classes. -/
theorem recorded_from {items : List Item} {classSlots : Dict String (List String)} {k : String}
    (h : Dict.contains (collectUserWords items classSlots) k = true) :
    (∃ item ∈ items, ∃ w, item.userWord = some w ∧ k = lower w.name) ∨
      ∃ c ∈ classes items, k ∈ (classUserWords c (slotsOf classSlots c)).map Prod.fst := by
  have hClassWords := (writes_classUserWords classSlots).foldl
    ((items.filterMap Item.userWord).foldl (fun words w => Dict.insert words (lower w.name) w) [])
    (classes items) k
  have hNamed := writes_userWords.foldl [] (items.filterMap Item.userWord) k
  by_contra hNone
  rw [not_or] at hNone
  have hNotClass : k ∉ (classes items).flatMap fun c =>
      (classUserWords c (slotsOf classSlots c)).map Prod.fst := by
    intro hk
    obtain ⟨c, hc, hk⟩ := List.mem_flatMap.mp hk
    exact hNone.2 ⟨c, hc, hk⟩
  have hNotItem : k ∉ (items.filterMap Item.userWord).flatMap fun w => [lower w.name] := by
    intro hk
    obtain ⟨w, hw, hk⟩ := List.mem_flatMap.mp hk
    obtain ⟨item, hItem, hSome⟩ := List.mem_filterMap.mp hw
    exact hNone.1 ⟨item, hItem, w, hSome, List.mem_singleton.mp hk⟩
  rw [collectUserWords, Dict.contains, hClassWords.2 hNotClass, hNamed.2 hNotItem] at h
  cases h

/-- The words of a class are written with it. -/
theorem classUserWord_defined {c : ClassDef} {slots : List String} {k : String}
    (hName : factorUserName (lower c.name) ++ "?" = factorUserName (lower c.name ++ "?"))
    (h : k ∈ (classUserWords c slots).map Prod.fst) : factorUserName k ∈ classWords c slots := by
  unfold classUserWords at h
  rw [List.map_append, List.mem_append] at h
  unfold classWords mangled
  obtain h | h := h
  · simp only [List.map_cons, List.map_nil, List.mem_cons, List.not_mem_nil, or_false] at h
    obtain rfl | rfl := h
    · exact List.mem_cons_of_mem _ (List.mem_cons_of_mem _ List.mem_cons_self)
    · exact List.mem_cons_of_mem _ (List.mem_cons.mpr (.inl hName.symm))
  · obtain ⟨p, hp, rfl⟩ := List.mem_map.mp h
    obtain ⟨s, hs, hp⟩ := List.mem_flatMap.mp hp
    refine List.mem_cons_of_mem _ (List.mem_cons_of_mem _ (List.mem_cons_of_mem _ ?_))
    refine List.mem_flatMap.mpr ⟨s, hs, ?_⟩
    simp only [List.mem_cons, List.not_mem_nil, or_false] at hp ⊢
    obtain rfl | rfl | rfl := hp
    · exact .inl rfl
    · exact .inr (.inl rfl)
    · exact .inr (.inr rfl)

/-- The emitted source defines every name that the compile records. -/
theorem recorded_defined {host : Host} {fs : FileSystem} {source : String} {ctx : CompileContext}
    {synth : Nat} {s : Sema} (h : (analyse host fs source ctx synth).result = .ok s) (helper : Nat)
    (hItems : WordsOnly s.program.items) {k : String} (hk : definesWord s k = true) :
    factorUserName k ∈ (Eval.mk s helper).ir.flatMap Line.defines := by
  have hEmitted : ∀ w ∈ (Eval.mk s helper).defined,
      w ∈ (Eval.mk s helper).ir.flatMap Line.defines := by
    intro w hw
    have hOne := defined_emitted [Eval.mk s helper] w (by simpa using hw)
    simpa [emitted] using hOne
  apply hEmitted
  obtain ⟨resolved, docs, rfl⟩ := analyse_built host fs h
  obtain ⟨item, hItem, w, hw, rfl⟩ | ⟨c, hc, hk⟩ := recorded_from hk
  · refine List.mem_flatMap.mpr ⟨item, hItem, ?_⟩
    cases item with
    | template t => exact absurd hItem (hItems.template t)
    | class_ c =>
      obtain rfl := Option.some.inj hw
      exact List.mem_cons_self
    | generic g =>
      obtain rfl := Option.some.inj hw
      unfold Item.defined genericFamily
      dsimp only
      split
      · exact List.mem_cons_self
      · exact List.mem_cons_self
    | method _ | rawFactor _ | topLevel _ _ | needs _ _ => cases hw
    | _ =>
      obtain rfl := Option.some.inj hw
      exact List.mem_cons_self
  · refine List.mem_flatMap.mpr ⟨.class_ c, mem_classes.mp hc, ?_⟩
    exact classUserWord_defined (hItems.class_ c hc) hk

/-! What an eval has to meet. -/

/-- The VM takes every definition of the source. What the compile records are words of the source, with
an effect wherever the context has one, and no word of the source is the spelling of another name. -/
structure Meets (ctx : CompileContext) (l : Loaded) : Prop where
  accepted : (l.compiled.ir.drop l.accepted).flatMap Line.defines = []
  words : WordsOnly l.compiled.items
  effect : ∀ k, definesWord l.compiled.sema k = true → Dict.contains ctx.userEffects k = true →
    k ∈ effectNames l.compiled.items l.compiled.sema.classSlots
  spelling : ∀ k, Dict.contains ctx.userWords k = true → definesWord l.compiled.sema k = false →
    factorUserName k ∉ l.compiled.ir.flatMap Line.defines

/-- An eval whose compile succeeds meets the VM, and no session dies that has known a name. -/
def evalMeets (host : Host) (fs : FileSystem) (d : Drain) (source : String) (accepted : Nat)
    (dies : Bool) : Prop :=
  (∀ e, compileEval host fs source d.ctx d.counters = some e → Meets d.ctx ⟨e, accepted⟩) ∧
    (dies = true → ∀ k,
      Dict.contains (handleEval host fs d source accepted).ctx.userWords k = false)

def drainMeets (host : Host) (fs : FileSystem) (d : Drain) : DrainEvent → Prop
  | .evalBuffer source accepted dies => evalMeets host fs d source accepted dies
  | .replSubmit source accepted dies => evalMeets host fs d source accepted dies
  | .forthInterrupt => True
  | .forthRestart => True
  | .crash => True

theorem words_of_accepted {l : Loaded}
    (h : (l.compiled.ir.drop l.accepted).flatMap Line.defines = []) :
    l.words = l.compiled.ir.flatMap Line.defines := by
  have hSplit : (l.compiled.ir.take l.accepted ++ l.compiled.ir.drop l.accepted).flatMap Line.defines =
      _ := List.flatMap_append
  rw [List.take_append_drop, h, List.append_nil] at hSplit
  exact hSplit.symm

theorem heldBy_cons (l : Loaded) (vm : List Loaded) (k : String) :
    heldBy (l :: vm) k =
      if factorUserName k ∈ l.words then some l else heldBy vm k := by
  unfold heldBy
  rw [List.find?_cons]
  by_cases hk : factorUserName k ∈ l.words
  · rw [if_pos hk, List.contains_iff_mem.mpr hk]
  · have hNot : l.words.contains (factorUserName k) = false := by simpa using hk
    rw [if_neg hk, hNot]

section
variable {host : Host} {fs : FileSystem}

/-- The effect of a name defined again is that of its new definition, unless only the context has one. -/
theorem effect_update {source : String} {ctx : CompileContext} {synth : Nat} {s : Sema}
    (h : (analyse host fs source ctx synth).result = .ok s) {k : String}
    (hEffect : Dict.contains ctx.userEffects k = true →
      k ∈ effectNames s.program.items s.classSlots) :
    (ctx.update s).userEffects.lookup k = (roleFrom s k).effect := by
  obtain ⟨hNew, hOld⟩ := built_userEffects h k
  show (Dict.merge ctx.userEffects s.userEffects).lookup k =
    if k ∈ effectNames s.program.items s.classSlots then s.userEffects.lookup k else none
  rw [Dict.lookup_merge]
  by_cases hName : k ∈ effectNames s.program.items s.classSlots
  · obtain ⟨effect, hSome⟩ := Dict.contains_iff.mp (hNew hName)
    rw [if_pos hName, hSome]
    rfl
  · have hNone : ctx.userEffects.lookup k = none := by
      cases hLookup : ctx.userEffects.lookup k with
      | none => rfl
      | some effect => exact absurd (hEffect (Dict.contains_iff.mpr ⟨effect, hLookup⟩)) hName
    rw [if_neg hName, hOld hName, hNone]
    rfl

theorem contains_update (ctx : CompileContext) (s : Sema) (k : String) :
    Dict.contains (ctx.update s).userWords k =
      (definesWord s k || Dict.contains ctx.userWords k) := by
  show Dict.contains (Dict.merge ctx.userWords (s.userWords.map fun p => (p.1, p.2.defSpan))) k = _
  rw [Dict.contains_merge]
  exact congrArg (· || _) (Dict.contains_map (fun _ w => w.defSpan) s.userWords k)

theorem start_inLockstep (counters : Counters) : InLockstep (.start counters) := by
  intro k hk
  cases hk

/-- A compile whose definitions all reach the VM. -/
theorem update_inLockstep {d : Drain} (h : InLockstep d) {source : String} {synth : Nat} {s : Sema}
    (hSema : (analyse host fs source d.ctx synth).result = .ok s) {helper accepted : Nat}
    (hMeets : Meets d.ctx ⟨⟨s, helper⟩, accepted⟩) (counters : Counters) (included : List String) :
    InLockstep ⟨{ d.ctx with included := included }.update s, counters,
      ⟨⟨s, helper⟩, accepted⟩ :: d.vm⟩ := by
  intro k hk
  have hWords : (Loaded.mk ⟨s, helper⟩ accepted).words =
      (Eval.mk s helper).ir.flatMap Line.defines := words_of_accepted hMeets.accepted
  have hRecord := contains_update { d.ctx with included := included } s k
  have hContains : (definesWord s k || Dict.contains d.ctx.userWords k) = true :=
    hRecord.symm.trans hk
  unfold heldEffect
  dsimp only
  rw [heldBy_cons, hWords]
  cases hDefines : definesWord s k with
  | true =>
    rw [if_pos (recorded_defined hSema helper hMeets.words hDefines)]
    exact ⟨rfl, effect_update hSema (hMeets.effect k hDefines)⟩
  | false =>
    rw [hDefines, Bool.false_or] at hContains
    rw [if_neg (hMeets.spelling k hContains hDefines)]
    obtain ⟨hHeld, hEffect⟩ := h k hContains
    have hSame : (d.ctx.update s).userEffects.lookup k = d.ctx.userEffects.lookup k :=
      congrArg Role.effect (roleIn_other hSema hDefines)
    exact ⟨hHeld, hSame.trans hEffect⟩

theorem handleEval_inLockstep {d : Drain} (h : InLockstep d) {source : String} {accepted : Nat}
    (hMeets : ∀ e, compileEval host fs source d.ctx d.counters = some e →
      Meets d.ctx ⟨e, accepted⟩) : InLockstep (handleEval host fs d source accepted) := by
  unfold handleEval compileInContextWithDiagnostics
  unfold compileEval at hMeets ⊢
  dsimp only
  cases hSema : (analyse host fs source d.ctx d.counters.synth).result with
  | error e => exact h
  | ok s =>
    rw [hSema] at hMeets
    exact update_inLockstep h hSema (hMeets _ rfl) _ _

theorem reboot_inLockstep {d : Drain} (h : InLockstep d) {dies : Bool}
    (hDies : dies = true → ∀ k, Dict.contains d.ctx.userWords k = false) :
    InLockstep (reboot d dies) := by
  cases dies with
  | false => exact h
  | true =>
    intro k hk
    exact absurd ((hDies rfl k).symm.trans hk) Bool.false_ne_true

theorem drainStep_inLockstep {d : Drain} (h : InLockstep d) (event : DrainEvent)
    (hMeets : drainMeets host fs d event) : InLockstep (drainStep host fs d event) := by
  cases event with
  | evalBuffer source accepted dies =>
    exact reboot_inLockstep (handleEval_inLockstep h hMeets.1) hMeets.2
  | replSubmit source accepted dies =>
    exact reboot_inLockstep (handleEval_inLockstep h hMeets.1) hMeets.2
  | forthInterrupt => exact h
  | forthRestart => exact start_inLockstep d.counters
  | crash => exact start_inLockstep d.counters

end

/-- Colon definitions alone. -/
theorem wordsOnly_of_colons {items : List Item} (h : items.all Item.isColon = true) :
    WordsOnly items := by
  have hColon := List.all_eq_true.mp h
  constructor
  · intro t ht
    cases hColon _ ht
  · intro c hc
    cases hColon _ (mem_classes.mp hc)

end FactorForth.Correctness
