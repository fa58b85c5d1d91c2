import FactorForth.Correctness.Session
import Mathlib.Data.List.Induction
import Mathlib.Data.List.Infix

/-! Generics and their methods over a session. A compile gives a generic with auxiliary methods a
wrapper and three shadow generics, and any other generic a word of its own; a method goes where the
compile it stands in would put it. -/

namespace FactorForth.Correctness
open FactorForth.Library FactorForth.Compiler

/-- The words of a generic: its own, and those of its shadows. -/
def familyWords (g : String) : List String :=
  [mangled g, mangled g ++ ":primary", mangled g ++ ":before", mangled g ++ ":after"]

def Item.declares (g : String) : Item → Bool
  | .generic gd => lower gd.name = lower g
  | _ => false

/-- What an item other than a method is written as. -/
def Item.lines (r : Sema) (aux : List String) (item : Item) : Ir :=
  item.declaration r aux ++ item.colonWord r ++ item.execution r

namespace Eval

def methodLines (e : Eval) : Ir := (emitMethods e.sema e.aux e.items e.helper).1

/-- The words of the generic are defined by its `GENERIC:` only. -/
def KeepsWords (e : Eval) (g : String) : Prop :=
  (∀ item ∈ e.items, Item.declares g item = false →
    ∀ w ∈ familyWords g, w ∉ (Item.lines e.sema e.aux item).flatMap Line.defines) ∧
  ∀ w ∈ familyWords g, w ∉ e.methodLines.flatMap Line.defines

instance (e : Eval) (g : String) : Decidable (e.KeepsWords g) :=
  inferInstanceAs (Decidable (_ ∧ _))

def generics (e : Eval) (g : String) : List GenericDef :=
  e.items.filterMap fun
    | .generic gd => if lower gd.name = lower g then some gd else none
    | _ => none

def hasAux (e : Eval) (g : String) : Bool := e.aux.contains (lower g)

end Eval

/-- The latest `GENERIC:` of a name, with the compile it stands in. -/
def lastGeneric (g : String) : List Eval → Option (Eval × GenericDef)
  | [] => none
  | e :: es => (lastGeneric g es).or ((e.generics g).getLast?.map fun gd => (e, gd))

/-! What the emitted source says. -/

def genericWords (ir : Ir) : List String :=
  ir.filterMap fun
    | .generic name _ => some name
    | _ => none

def methodWords (ir : Ir) : List String :=
  ir.filterMap fun
    | .method name _ _ => some name
    | _ => none

/-- Calls of the form's word come to the generic `target`. -/
def Line.dispatches (target : String) : Line → Prop
  | .generic name _ => name = target
  | .localsColon _ _ _ body => userTok target ∈ body
  | _ => False

def Line.isGeneric : Line → Prop
  | .generic _ _ => True
  | _ => False

/-- A call of the public name comes to `target`, which is a generic. -/
def Reaches (ir : Ir) (name target : String) : Prop :=
  (∃ l, currentDef ir (mangled name) = some l ∧ Line.dispatches target l) ∧
    ∃ l, currentDef ir target = some l ∧ Line.isGeneric l

/-- Every generic that a `METHOD:` names is declared, and every method is where calls come to. -/
structure Attached (es : List Eval) : Prop where
  declared : ∀ w ∈ methodWords (emitted es), w ∈ genericWords (emitted es)
  reached : ∀ e ∈ es, ∀ m ∈ e.methods,
    Reaches (emitted es) m.genericName (methodTarget m e.aux)

/-- The latest `GENERIC:` of the method's name has the shape that the method was compiled for, and
calls its auxiliary methods. -/
def Agrees (es : List Eval) (e : Eval) (m : MethodDef) : Prop :=
  match lastGeneric m.genericName es with
  | some (e', gd) => e'.hasAux m.genericName = e.hasAux m.genericName ∧
      (m.kind ≠ .primary → gd.effect.inputs ≠ [])
  | none => False

instance (es : List Eval) (e : Eval) (m : MethodDef) : Decidable (Agrees es e m) :=
  match h : lastGeneric m.genericName es with
  | some (e', gd) => decidable_of_iff (e'.hasAux m.genericName = e.hasAux m.genericName ∧
      (m.kind ≠ .primary → gd.effect.inputs ≠ [])) (by simp [Agrees, h])
  | none => .isFalse (by simp [Agrees, h])

/-- Each `METHOD:` stands behind a `GENERIC:` of its name. -/
def methodsFollow (known : List String) : List Item → Bool
  | [] => true
  | .generic gd :: items => methodsFollow (lower gd.name :: known) items
  | .method m :: items => known.contains (lower m.genericName) && methodsFollow known items
  | _ :: items => methodsFollow known items

/-! The source of one compile, cut at the last `GENERIC:` of a name. -/

section
variable {e : Eval} {g w : String}

theorem mangled_congr {a b : String} (h : lower a = lower b) : mangled a = mangled b := by
  unfold mangled
  rw [h]

theorem mem_generics {gd : GenericDef} :
    gd ∈ e.generics g ↔ .generic gd ∈ e.items ∧ lower gd.name = lower g := by
  unfold Eval.generics
  rw [List.mem_filterMap]
  constructor
  · rintro ⟨item, hItem, hSome⟩
    split at hSome
    · split at hSome
      · rename_i hName
        obtain rfl := Option.some.inj hSome
        exact ⟨hItem, hName⟩
      · cases hSome
    · cases hSome
  · rintro ⟨hItem, hName⟩
    exact ⟨_, hItem, by simp [hName]⟩

/-- Declarations of other items leave the words of `g` to its last `GENERIC:`. -/
theorem currentDef_declarations (items : List Item) {r : Sema} {aux : List String}
    (hOther : ∀ item ∈ items, Item.declares g item = false →
      w ∉ (item.declaration r aux).flatMap Line.defines)
    {gd : GenericDef} {l : Line}
    (hLast : (items.filterMap fun
      | .generic gd => if lower gd.name = lower g then some gd else none
      | _ => none).getLast? = some gd)
    (hl : currentDef (emitGeneric gd aux) w = some l) :
    currentDef (items.flatMap (Item.declaration r aux)) w = some l := by
  induction items using List.reverseRecOn with
  | nil => cases hLast
  | append_singleton items item ih =>
    rw [List.filterMap_append, List.getLast?_append] at hLast
    rw [List.flatMap_append, currentDef_append]
    cases hd : Item.declares g item with
    | true =>
      cases item with
      | generic gd' =>
        have hName : lower gd'.name = lower g := by simpa [Item.declares] using hd
        have hEq : gd' = gd := by simpa [hName] using hLast
        have hHere : currentDef ([Item.generic gd'].flatMap (Item.declaration r aux)) w = some l := by
          rw [hEq]
          simpa [Item.declaration] using hl
        rw [hHere]
        rfl
      | _ => cases hd
    | false =>
      have hNone : currentDef ([item].flatMap (Item.declaration r aux)) w = none := by
        apply currentDef_none
        simpa using hOther item (by simp) hd
      rw [hNone]
      apply ih (fun i hi => hOther i (List.mem_append_left _ hi))
      cases item with
      | generic gd' =>
        have hName : ¬ lower gd'.name = lower g := by simpa [Item.declares] using hd
        simpa [hName] using hLast
      | _ => simpa using hLast

theorem ir_eq (e : Eval) : e.ir = ([.using_ (vocabsNeeded e.sema), .inScratchpad] ++
    e.items.flatMap (Item.declaration e.sema e.aux)) ++ (e.methodLines ++
    e.items.flatMap (Item.colonWord e.sema) ++ e.items.flatMap (Item.execution e.sema) ++ [.flush]) := by
  simp only [Eval.ir, emit, Eval.methodLines, Eval.aux, Eval.items, List.append_assoc, if_true]

theorem Eval.KeepsWords.declaration (h : e.KeepsWords g) (hw : w ∈ familyWords g) {item : Item}
    (hi : item ∈ e.items) (hd : Item.declares g item = false) :
    w ∉ (item.declaration e.sema e.aux).flatMap Line.defines := by
  intro hMem
  refine h.1 item hi hd w hw ?_
  rw [Item.lines, List.flatMap_append, List.flatMap_append]
  exact List.mem_append_left _ (List.mem_append_left _ hMem)

/-- Behind the declarations nothing defines a word of the generic. -/
theorem Eval.KeepsWords.behind (h : e.KeepsWords g) (hw : w ∈ familyWords g) :
    currentDef (e.methodLines ++ e.items.flatMap (Item.colonWord e.sema) ++
      e.items.flatMap (Item.execution e.sema) ++ [.flush]) w = none := by
  have hItem : ∀ item ∈ e.items, ∀ l ∈ item.colonWord e.sema ++ item.execution e.sema, w ∉ Line.defines l := by
    intro item hi l hl hDef
    cases hd : Item.declares g item with
    | true =>
      cases item with
      | generic gd => cases hl
      | _ => cases hd
    | false =>
      refine h.1 item hi hd w hw (List.mem_flatMap.mpr ⟨l, ?_, hDef⟩)
      rw [Item.lines, List.append_assoc]
      exact List.mem_append_right _ hl
  apply currentDef_none
  simp only [List.flatMap_append, List.mem_append, not_or]
  refine ⟨⟨⟨h.2 w hw, ?_⟩, ?_⟩, by simp [Line.defines]⟩
  · simp only [List.mem_flatMap, not_exists, not_and]
    rintro l ⟨item, hi, hl⟩
    exact hItem item hi l (List.mem_append_left _ hl)
  · simp only [List.mem_flatMap, not_exists, not_and]
    rintro l ⟨item, hi, hl⟩
    exact hItem item hi l (List.mem_append_right _ hl)

theorem currentDef_ir (h : e.KeepsWords g) (hw : w ∈ familyWords g) {gd : GenericDef} {l : Line}
    (hLast : (e.generics g).getLast? = some gd)
    (hl : currentDef (emitGeneric gd e.aux) w = some l) : currentDef e.ir w = some l := by
  rw [ir_eq, currentDef_append, h.behind hw, currentDef_append,
    currentDef_declarations e.items (fun item hi hd => h.declaration hw hi hd) hLast hl]
  rfl

theorem currentDef_ir_none (h : e.KeepsWords g) (hw : w ∈ familyWords g)
    (hNone : e.generics g = []) : currentDef e.ir w = none := by
  rw [ir_eq, currentDef_append, h.behind hw, currentDef_append]
  have hDecl : currentDef (e.items.flatMap (Item.declaration e.sema e.aux)) w = none := by
    apply currentDef_none
    simp only [List.mem_flatMap, not_exists, not_and]
    rintro l ⟨item, hi, hl⟩ hDef
    have hd : Item.declares g item = false := by
      cases item with
      | generic gd =>
        have hNot : gd ∉ e.generics g := by simp [hNone]
        rw [mem_generics] at hNot
        simpa [Item.declares] using fun hName => hNot ⟨hi, hName⟩
      | _ => rfl
    exact h.declaration hw hi hd (List.mem_flatMap.mpr ⟨l, hl, hDef⟩)
  rw [hDecl]
  rfl

/-- Compiles without a `GENERIC:` of the family define none of its words. -/
theorem currentDef_emitted_none {es : List Eval} (h : ∀ e ∈ es, e.KeepsWords g)
    (hw : w ∈ familyWords g) (hNone : lastGeneric g es = none) : currentDef (emitted es) w = none := by
  induction es with
  | nil => rfl
  | cons e es ih =>
    have hSplit : lastGeneric g es = none ∧ (e.generics g).getLast? = none := by
      simpa [lastGeneric] using hNone
    have hRest := ih (fun e he => h e (List.mem_cons_of_mem _ he)) hSplit.1
    have hHere := currentDef_ir_none (h e List.mem_cons_self) hw (by simpa using hSplit.2)
    rw [emitted_cons, currentDef_append, hRest, hHere]
    rfl

/-- The latest `GENERIC:` of the session has the last word. -/
theorem currentDef_emitted {es : List Eval} (h : ∀ e ∈ es, e.KeepsWords g)
    (hw : w ∈ familyWords g) {gd : GenericDef} {l : Line}
    (hLast : lastGeneric g es = some (e, gd))
    (hl : currentDef (emitGeneric gd e.aux) w = some l) : currentDef (emitted es) w = some l := by
  induction es with
  | nil => cases hLast
  | cons e' es ih =>
    rw [emitted_cons, currentDef_append]
    have hRest := fun e he => h e (List.mem_cons_of_mem _ he)
    cases hLater : lastGeneric g es with
    | some p =>
      have hEq : p = (e, gd) := by simpa [lastGeneric, hLater] using hLast
      rw [ih hRest (by rw [hLater, hEq])]
      rfl
    | none =>
      have hLaterNone := currentDef_emitted_none hRest hw hLater
      have hHere : (e'.generics g).getLast? = some gd ∧ e' = e := by
        cases hGenerics : (e'.generics g).getLast? with
        | none => simp [lastGeneric, hLater, hGenerics] at hLast
        | some gd' =>
          have hPair : e' = e ∧ gd' = gd := by simpa [lastGeneric, hLater, hGenerics] using hLast
          exact ⟨by rw [hPair.2], hPair.1⟩
      obtain ⟨hGeneric, rfl⟩ := hHere
      rw [hLaterNone, currentDef_ir (h e' (by simp)) hw hGeneric hl]
      rfl

end

/-! The shapes of a generic. -/

section
variable {gd : GenericDef} {aux : List String}

theorem self_ne_append {n s : String} (h : s ≠ "") : n ≠ n ++ s := by
  intro hEq
  have hSelf : n ++ s = n := hEq.symm
  simp [h] at hSelf

theorem currentDef_plain (h : aux.contains (lower gd.name) = false) :
    currentDef (emitGeneric gd aux) (mangled gd.name) =
      some (.generic (mangled gd.name) ⟨gd.effect.inputs, gd.effect.outputs⟩) := by
  unfold emitGeneric
  rw [if_neg (by simpa using h)]
  simp [currentDef, Line.defines]

theorem currentDef_wrapper (h : aux.contains (lower gd.name) = true) :
    currentDef (emitGeneric gd aux) (mangled gd.name) = some (emitGenericWrapper (mangled gd.name)
      gd.effect.inputs.length gd.effect.outputs.length) := by
  have hPrimary : mangled gd.name ≠ mangled gd.name ++ ":primary" := self_ne_append (by decide)
  have hBefore : mangled gd.name ≠ mangled gd.name ++ ":before" := self_ne_append (by decide)
  have hAfter : mangled gd.name ≠ mangled gd.name ++ ":after" := self_ne_append (by decide)
  unfold emitGeneric
  rw [if_pos h]
  split <;> simp [currentDef, Line.defines, emitGenericWrapper, hPrimary, hBefore, hAfter]

theorem currentDef_shadow (h : aux.contains (lower gd.name) = true) {shadow : String}
    (hs : shadow ∈ [":primary", ":before", ":after"]) :
    ∃ effect, currentDef (emitGeneric gd aux) (mangled gd.name ++ shadow) =
      some (.generic (mangled gd.name ++ shadow) effect) := by
  unfold emitGeneric
  rw [if_pos h]
  simp only [List.mem_cons, List.not_mem_nil, or_false] at hs
  rcases hs with rfl | rfl | rfl
  · refine ⟨⟨gd.effect.inputs, gd.effect.outputs⟩, ?_⟩
    split <;> simp [currentDef, Line.defines, emitGenericWrapper]
  · refine ⟨⟨gd.effect.inputs, []⟩, ?_⟩
    split <;> simp [currentDef, Line.defines, emitGenericWrapper]
  · refine ⟨⟨gd.effect.inputs, []⟩, ?_⟩
    split <;> simp [currentDef, Line.defines, emitGenericWrapper]

def shadow : MethodKind → String
  | .primary => ":primary"
  | .before => ":before"
  | .after => ":after"

theorem shadow_mem (kind : MethodKind) : shadow kind ∈ [":primary", ":before", ":after"] := by
  cases kind <;> simp [shadow]

/-- The wrapper calls the primary shadow always, and the other two when it has inputs to give. -/
theorem wrapper_dispatches {n : String} {numIn numOut : Nat} {kind : MethodKind}
    (h : kind ≠ .primary → 0 < numIn) :
    Line.dispatches (n ++ shadow kind) (emitGenericWrapper n numIn numOut) := by
  unfold emitGenericWrapper
  show userTok _ ∈ _
  cases kind with
  | primary => simp [shadow]
  | before => simp [shadow, h (by simp)]
  | after => simp [shadow, h (by simp)]

end

theorem aux_of_method {e : Eval} {m : MethodDef} (hm : m ∈ e.methods) (hk : m.kind ≠ .primary) :
    e.hasAux m.genericName = true := by
  have hMem : lower m.genericName ∈ e.aux := by
    unfold Eval.aux auxGenerics
    exact List.mem_filterMap.mpr ⟨.method m, mem_methods.mp hm, by simp [hk]⟩
  simpa [Eval.hasAux] using hMem

theorem lastGeneric_name {g : String} {es : List Eval} {e : Eval} {gd : GenericDef}
    (h : lastGeneric g es = some (e, gd)) : lower gd.name = lower g := by
  induction es with
  | nil => cases h
  | cons e' es ih =>
    cases hLater : lastGeneric g es with
    | some p =>
      have hEq : p = (e, gd) := by simpa [lastGeneric, hLater] using h
      exact ih (by rw [hLater, hEq])
    | none =>
      cases hGenerics : (e'.generics g).getLast? with
      | none => simp [lastGeneric, hLater, hGenerics] at h
      | some gd' =>
        have hPair : e' = e ∧ gd' = gd := by simpa [lastGeneric, hLater, hGenerics] using h
        rw [← hPair.2]
        exact (mem_generics.mp (List.mem_of_getLast? hGenerics)).2

theorem reaches_of_lastGeneric {es : List Eval} {e e' : Eval} {m : MethodDef} {gd : GenericDef}
    (hm : m ∈ e.methods) (hKeeps : ∀ e ∈ es, e.KeepsWords m.genericName)
    (hLast : lastGeneric m.genericName es = some (e', gd))
    (hSame : e'.hasAux m.genericName = e.hasAux m.genericName)
    (hInputs : m.kind ≠ .primary → gd.effect.inputs ≠ []) :
    Reaches (emitted es) m.genericName (methodTarget m e.aux) := by
  have hName : lower gd.name = lower m.genericName := lastGeneric_name hLast
  have hMangled : mangled gd.name = mangled m.genericName := mangled_congr hName
  have hOwn : mangled m.genericName ∈ familyWords m.genericName := by simp [familyWords]
  cases hAux : e'.hasAux m.genericName with
  | false =>
    rw [hAux] at hSame
    -- without auxiliary methods the method is on the generic itself
    have hPrimary : m.kind = .primary := by
      by_contra hk
      rw [aux_of_method hm hk] at hSame
      cases hSame
    have hTarget : methodTarget m e.aux = mangled m.genericName := by
      have hNot : lower m.genericName ∉ e.aux := by simpa [Eval.hasAux] using hSame.symm
      simp [methodTarget, hPrimary, hNot]
    have hPlain : e'.aux.contains (lower gd.name) = false := by
      rw [hName]
      exact hAux
    have hDef := currentDef_emitted hKeeps hOwn hLast (by
      rw [← hMangled]
      exact currentDef_plain hPlain)
    rw [hTarget]
    exact ⟨⟨_, hDef, hMangled⟩, ⟨_, hDef, trivial⟩⟩
  | true =>
    rw [hAux] at hSame
    have hWrapped : e'.aux.contains (lower gd.name) = true := by
      rw [hName]
      exact hAux
    have hTarget : methodTarget m e.aux = mangled m.genericName ++ shadow m.kind := by
      have hIn : lower m.genericName ∈ e.aux := by simpa [Eval.hasAux] using hSame.symm
      unfold methodTarget
      cases m.kind <;> simp [hIn, shadow]
    have hLength : m.kind ≠ .primary → 0 < gd.effect.inputs.length :=
      fun hk => List.length_pos_iff.mpr (hInputs hk)
    have hDef := currentDef_emitted hKeeps hOwn hLast (by
      rw [← hMangled]
      exact currentDef_wrapper hWrapped)
    -- the wrapper calls the shadow generic that the method is on
    have hCall : Line.dispatches (methodTarget m e.aux) (emitGenericWrapper (mangled gd.name)
        gd.effect.inputs.length gd.effect.outputs.length) := by
      rw [hTarget, hMangled]
      exact wrapper_dispatches hLength
    refine ⟨⟨_, hDef, hCall⟩, ?_⟩
    obtain ⟨effect, hEffect⟩ := currentDef_shadow hWrapped (shadow_mem m.kind)
    have hFamily : methodTarget m e.aux ∈ familyWords m.genericName := by
      rw [hTarget]
      cases m.kind <;> simp [familyWords, shadow]
    have hShadowDef := currentDef_emitted hKeeps hFamily hLast (by
      rw [hTarget, ← hMangled]
      exact hEffect)
    exact ⟨_, hShadowDef, trivial⟩

/-- A method whose compile agrees with the latest `GENERIC:` is where calls come to. -/
theorem reaches_of_agrees {es : List Eval} {e : Eval} {m : MethodDef} (hm : m ∈ e.methods)
    (hKeeps : ∀ e ∈ es, e.KeepsWords m.genericName) (h : Agrees es e m) :
    Reaches (emitted es) m.genericName (methodTarget m e.aux) := by
  unfold Agrees at h
  split at h
  · rename_i e' gd hLast
    obtain ⟨hSame, hInputs⟩ := h
    exact reaches_of_lastGeneric hm hKeeps hLast hSame hInputs
  · exact h.elim

/-! The generics that are named by a `METHOD:`. -/

theorem genericWords_append (ir ir' : Ir) :
    genericWords (ir ++ ir') = genericWords ir ++ genericWords ir' := List.filterMap_append

theorem methodWords_append (ir ir' : Ir) :
    methodWords (ir ++ ir') = methodWords ir ++ methodWords ir' := List.filterMap_append

/-- Among the declarations only a wrapped generic has methods, and it declares their generics. -/
theorem methodWords_declaration (r : Sema) (aux : List String) (item : Item) :
    ∀ w ∈ methodWords (item.declaration r aux), w ∈ genericWords (item.declaration r aux) := by
  have hSlots : ∀ (n : String) (ss : List String),
      methodWords (ss.flatMap (emitSlotWords n)) = [] := by
    intro n ss
    induction ss with
    | nil => rfl
    | cons s ss ih =>
      rw [List.flatMap_cons, methodWords_append, ih]
      rfl
  match item with
  | .generic gd =>
    simp only [Item.declaration, emitGeneric]
    split
    · by_cases hIn : 0 < gd.effect.inputs.length
      · simp [hIn, methodWords, genericWords, emitGenericWrapper]
      · simp [hIn, methodWords, emitGenericWrapper]
    · simp [methodWords]
  | .variable v =>
    simp only [Item.declaration, emitVariable]
    split <;> simp [methodWords, emitStorage]
  | .constant c =>
    simp only [Item.declaration, emitConstant]
    split <;> simp [methodWords]
  | .class_ c =>
    have hNone : methodWords (emitClass c r) = [] := hSlots _ _
    simp only [Item.declaration, hNone]
    simp
  | .create c => simp [Item.declaration, emitCreate, emitStorage, methodWords]
  | .collection c => simp [Item.declaration, emitCollection, emitStorage, methodWords]
  | .templateInstance t => simp [Item.declaration, emitTemplateInstance, emitStorage, methodWords]
  | .value v => simp [Item.declaration, emitValueDecl, methodWords]
  | .definition _ | .topLevel _ _ | .template _ | .method _ | .rawFactor _ | .needs _ _ =>
    simp [Item.declaration, methodWords]

theorem methodWords_methods (r : Sema) (aux : List String) (items : List Item) (helper : Nat) :
    ∀ w ∈ methodWords (emitMethods r aux items helper).1,
      ∃ m, .method m ∈ items ∧ w = methodTarget m aux := by
  induction items generalizing helper with
  | nil => simp [emitMethods, methodWords]
  | cons item items ih =>
    intro w hw
    have hRest : ∀ helper', w ∈ methodWords (emitMethods r aux items helper').1 →
        ∃ m, .method m ∈ item :: items ∧ w = methodTarget m aux := by
      intro helper' hw
      obtain ⟨m, hm, hEq⟩ := ih helper' w hw
      exact ⟨m, List.mem_cons_of_mem _ hm, hEq⟩
    cases item with
    | method m =>
      simp only [emitMethods, methodWords_append, List.mem_append] at hw
      rcases hw with hw | hw
      · refine ⟨m, List.mem_cons_self, ?_⟩
        unfold emitMethod at hw
        split at hw <;> simpa [methodWords] using hw
      · exact hRest _ hw
    | _ => exact hRest _ hw

theorem methodWords_flatMap {α : Type} (f : α → Ir) (xs : List α) :
    methodWords (xs.flatMap f) = xs.flatMap fun x => methodWords (f x) := by
  unfold methodWords
  rw [List.filterMap_flatMap]

theorem genericWords_flatMap {α : Type} (f : α → Ir) (xs : List α) :
    genericWords (xs.flatMap f) = xs.flatMap fun x => genericWords (f x) := by
  unfold genericWords
  rw [List.filterMap_flatMap]

/-- The `METHOD:`s of one compile are the defaults of its wrappers and its own methods. -/
theorem methodWords_ir (e : Eval) (w : String) (hw : w ∈ methodWords e.ir) :
    w ∈ genericWords e.ir ∨ ∃ m ∈ e.methods, w = methodTarget m e.aux := by
  rw [ir_eq] at hw
  simp only [methodWords_append, List.mem_append] at hw
  rcases hw with (hw | hw) | ((hw | hw) | hw) | hw
  · simp [methodWords] at hw
  · rw [methodWords_flatMap] at hw
    obtain ⟨item, hi, hw⟩ := List.mem_flatMap.mp hw
    refine .inl ?_
    rw [ir_eq, genericWords_append, genericWords_append, genericWords_flatMap]
    refine List.mem_append_left _ (List.mem_append_right _ (List.mem_flatMap.mpr ⟨item, hi, ?_⟩))
    exact methodWords_declaration e.sema e.aux item w hw
  · obtain ⟨m, hm, hEq⟩ := methodWords_methods _ _ _ _ w hw
    exact .inr ⟨m, mem_methods.mpr hm, hEq⟩
  · rw [methodWords_flatMap] at hw
    obtain ⟨item, _, hw⟩ := List.mem_flatMap.mp hw
    cases item with
    | definition d =>
      have hForm : methodWords [emitDefinition d e.sema] = [] := by
        unfold emitDefinition
        dsimp only
        split
        · rfl
        · split
          · split <;> rfl
          · rfl
      exact absurd (hForm ▸ hw) (by simp)
    | _ => cases hw
  · rw [methodWords_flatMap] at hw
    obtain ⟨item, _, hw⟩ := List.mem_flatMap.mp hw
    cases item <;> simp [Item.execution, methodWords, emitValueSeed] at hw
  · simp [methodWords] at hw

theorem attached_of_agrees {es : List Eval}
    (hKeeps : ∀ e ∈ es, ∀ m ∈ e.methods, ∀ e' ∈ es, e'.KeepsWords m.genericName)
    (hAgrees : ∀ e ∈ es, ∀ m ∈ e.methods, Agrees es e m) : Attached es := by
  have hReached : ∀ e ∈ es, ∀ m ∈ e.methods,
      Reaches (emitted es) m.genericName (methodTarget m e.aux) :=
    fun e he m hm => reaches_of_agrees hm (hKeeps e he m hm) (hAgrees e he m hm)
  refine ⟨?_, hReached⟩
  intro w hw
  unfold emitted at hw ⊢
  rw [methodWords_flatMap] at hw
  obtain ⟨e, he, hw⟩ := List.mem_flatMap.mp hw
  rcases methodWords_ir e w hw with hw | ⟨m, hm, hEq⟩
  · rw [genericWords_flatMap]
    exact List.mem_flatMap.mpr ⟨e, he, hw⟩
  · obtain ⟨_, l, hDef, hGeneric⟩ := hReached e he m hm
    obtain ⟨hMem, hDefines⟩ := mem_of_currentDef hDef
    rw [← hEq] at hDefines
    cases l with
    | generic name effect =>
      have hName : w = name := by simpa [Line.defines] using hDefines
      exact List.mem_filterMap.mpr ⟨_, hMem, by rw [hName]⟩
    | _ => cases hGeneric

/-- In a session whose compiles so far always agree with the latest `GENERIC:` of each method, every
method is attached after each compile. -/
theorem session_attached (host : Host) (fs : FileSystem) (sources : List String)
    (ctx : CompileContext) (counters : Counters)
    (hKeeps : ∀ e ∈ evals host fs sources ctx counters, ∀ m ∈ e.methods,
      ∀ e' ∈ evals host fs sources ctx counters, e'.KeepsWords m.genericName)
    (hAgrees : ∀ done ∈ (evals host fs sources ctx counters).inits,
      ∀ e ∈ done, ∀ m ∈ e.methods, Agrees done e m) :
    ∀ done ∈ (evals host fs sources ctx counters).inits, Attached done := by
  intro done hDone
  have hSub : ∀ e ∈ done, e ∈ evals host fs sources ctx counters :=
    fun e he => ((List.mem_inits _ _).mp hDone).subset he
  apply attached_of_agrees
  · exact fun e he m hm e' he' => hKeeps e (hSub e he) m hm e' (hSub e' he')
  · exact hAgrees done hDone

/-- A generic with all its methods in one compile, and a plain one that gets a method later. -/
theorem session_attached_twoGenerics :
    Attached (evals noLet noFiles
      ["generic: f ( a -- ) method-before: f ( a -- ) drop ; method: f ( a -- ) drop ; " ++
        "generic: g ( a -- )", "method: g ( a -- ) drop ;"] .new .start) :=
  session_attached noLet noFiles _ .new .start (by decide +kernel) (by decide +kernel) _
    ((List.mem_inits _ _).mpr (List.prefix_refl _))

/-- An auxiliary method one compile behind its generic names a shadow that was never declared. -/
theorem session_not_attached :
    ¬ ∀ sources : List String,
      methodsFollow [] ((evals noLet noFiles sources .new .start).flatMap Eval.items) = true →
      ∀ done ∈ (evals noLet noFiles sources .new .start).inits, Attached done := by
  intro h
  have hAll := h ["generic: f ( a -- ) method: f ( a -- ) drop ;", "method-before: f ( a -- ) drop ;"] (by decide +kernel) _
    ((List.mem_inits _ _).mpr (List.prefix_refl _))
  exact absurd hAll.declared (by decide +kernel)

end FactorForth.Correctness
