import FactorForth.Compiler.Occurrences
import FactorForth.Correctness.Session
import FactorForth.Library.DefinedFirst

/-! The order of definitions. The passes of emission reorder the items of a compile; here stands which
references still find their word defined in front of them. -/

namespace FactorForth.Correctness
open FactorForth.Library FactorForth.Compiler

/-- The user words a form names. -/
def Line.uses : Line → List String
  | .exec code => toksUserWords code
  | .constant _ value => value.userWords
  | .colon _ _ body _ => toksUserWords body
  | .localsColon _ _ _ body => toksUserWords body
  | .tuple _ parent _ => parent.toList
  | .method target specializers body =>
    target :: specializers.filter (· ≠ "object") ++ toksUserWords body
  | _ => []

/-- Each user word of the emitted source is defined in front of its use. -/
def Ordered (known : String → Prop) (ir : Ir) : Prop := DefinedFirst Line.defines Line.uses known ir

/-- The user words that the body of an item refers to. -/
def Item.refs (r : Sema) : Item → List String
  | .definition d => bodyRefs r d.body
  | .method m => bodyRefs r m.body
  | .constant c => match c.value with
    | .computed exprs => bodyRefs r exprs
    | _ => []
  | .value v => bodyRefs r v.initial
  | .topLevel exprs _ => bodyRefs r exprs
  | _ => []

/-- The user words that an item introduces in the source. -/
def Item.introduces (r : Sema) (item : Item) : List String :=
  item.userWord.toList.map (fun w => mangled w.name) ++ match item with
    | .class_ c => (classUserWords c (slotsOf r.classSlots c)).map fun p => factorUserName p.1
    | _ => []

/-- In the source every reference points to a name that is defined in front of it. -/
def PointsBack (es : List Eval) : Prop :=
  DefinedFirst (fun p : Eval × Item => Item.introduces p.1.sema p.2)
    (fun p : Eval × Item => Item.refs p.1.sema p.2) (fun _ => False)
    (es.flatMap fun e => e.items.map fun item => (e, item))

/-! What is defined by the form of an item, and which references a compile places behind it. -/

def classWords (c : ClassDef) (slots : List String) : List String :=
  let n := lower c.name
  mangled c.name :: (mangled c.name ++ "?") :: factorUserName ("<" ++ n ++ ">") ::
    slots.flatMap fun s => [factorUserName (n ++ ">" ++ s), factorUserName (s ++ ">>" ++ n),
      factorUserName (n ++ "." ++ s ++ "!")]

def genericFamily (g : GenericDef) (aux : List String) : List String :=
  let n := mangled g.name
  if aux.contains (lower g.name) then [n, n ++ ":primary", n ++ ":before", n ++ ":after"] else [n]

/-- A template has no form of its own. -/
def Item.defined (e : Eval) : Item → List String
  | .definition d => [mangled d.name]
  | .variable v => [mangled v.name]
  | .constant c => [mangled c.name]
  | .create c => [mangled c.name]
  | .collection c => [mangled c.name]
  | .templateInstance t => [mangled t.name]
  | .value v => [mangled v.name]
  | .class_ c => classWords c (slotsOf e.sema.classSlots c)
  | .generic g => genericFamily g e.aux
  | _ => []

def Item.isColon : Item → Bool
  | .definition _ => true
  | _ => false

/-- Items that are written in front of the colon words. -/
def Item.isHoisted : Item → Bool
  | .constant _ => true
  | .method _ => true
  | _ => false

namespace Eval

def defined (e : Eval) : List String := e.items.flatMap (Item.defined e)

/-- What the declarations of some items define. -/
def declared (e : Eval) (items : List Item) : List String :=
  (items.filter fun item => !Item.isColon item).flatMap (Item.defined e)

end Eval

/-- The class that an item extends. -/
def Item.parent : Item → Option String
  | .class_ c => c.superclass.map mangled
  | _ => none

/-- The references of a compile point to definitions that are written in front of them. -/
structure Placed (before : List Eval) (e : Eval) : Prop where
  /-- References of colon words and of code that runs at load time. -/
  plain : ∀ p ∈ splits e.items, Item.isHoisted p.2 = false → ∀ w ∈ Item.refs e.sema p.2,
    w ∈ before.flatMap Eval.defined ∨ w ∈ (p.1 ++ [p.2]).flatMap (Item.defined e)
  /-- References of computed constants and of methods. -/
  hoisted : ∀ p ∈ splits e.items, Item.isHoisted p.2 = true → ∀ w ∈ Item.refs e.sema p.2,
    w ∈ before.flatMap Eval.defined ∨ w ∈ e.declared (p.1 ++ [p.2])
  parents : ∀ p ∈ splits e.items, ∀ w ∈ (Item.parent p.2).toList,
    w ∈ before.flatMap Eval.defined ∨ w ∈ e.declared p.1
  targets : ∀ m ∈ e.methods,
    methodTarget m e.aux ∈ before.flatMap Eval.defined ∨ methodTarget m e.aux ∈ e.declared e.items
  specializers : ∀ m ∈ e.methods, ∀ s ∈ emitSpecializerList m, s ≠ "object" →
    s ∈ before.flatMap Eval.defined ∨ s ∈ e.declared e.items

set_option synthInstance.maxSize 512 in
instance (before : List Eval) (e : Eval) : Decidable (Placed before e) :=
  decidable_of_iff (_ ∧ _ ∧ _ ∧ _ ∧ _)
    ⟨fun ⟨h₁, h₂, h₃, h₄, h₅⟩ => ⟨h₁, h₂, h₃, h₄, h₅⟩, fun ⟨h₁, h₂, h₃, h₄, h₅⟩ => ⟨h₁, h₂, h₃, h₄, h₅⟩⟩

/-! The declarations. -/

section
variable {e : Eval} {known : String → Prop}

theorem Ordered.append {ir ir' : Ir} : Ordered known (ir ++ ir') ↔
    Ordered known ir ∧ Ordered (fun w => known w ∨ w ∈ ir.flatMap Line.defines) ir' :=
  DefinedFirst.append ir ir'

theorem ordered_single {l : Line} :
    Ordered known [l] ↔ ∀ w ∈ Line.uses l, known w ∨ w ∈ Line.defines l :=
  DefinedFirst.singleton l

theorem ordered_of_no_uses {ir : Ir} (h : ∀ l ∈ ir, Line.uses l = []) : Ordered known ir :=
  DefinedFirst.of_no_uses h

theorem emitStorage_ordered {symbol name : String} {init access : List Tok} {effect : EffectText}
    (hInit : toksUserWords init = []) (hAccess : toksUserWords access = []) :
    Ordered known (emitStorage symbol init name effect access) := by
  apply ordered_of_no_uses
  intro l hl
  simp only [emitStorage, List.mem_cons, List.not_mem_nil, or_false] at hl
  rcases hl with rfl | rfl | rfl
  · rfl
  · simp [Line.uses, toksUserWords_append, hInit, toksUserWords, Tok.userWords, setGlobal,
      Target.userWord?]
  · simp [Line.uses, hAccess, toksUserWords, Tok.userWords, getGlobal, Target.userWord?]

theorem emitDoesBody_userWords (exprs : List Expr) : toksUserWords (emitDoesBody exprs) = [] := by
  induction exprs with
  | nil => rfl
  | cons x xs ih =>
    have hHead : (emitDoesExpr x).userWords = [] := by
      unfold emitDoesExpr
      split
      · split
        · rfl
        · unfold emitDoesWord
          split <;> rfl
      · rfl
      · rfl
      · rfl
    show (emitDoesExpr x).userWords ++ toksUserWords (emitDoesBody xs) = []
    rw [hHead, ih]
    rfl

theorem emitClass_ordered (c : ClassDef) (r : Sema)
    (h : ∀ parent, c.superclass = some parent → known (mangled parent)) :
    Ordered known (emitClass c r) := by
  have hSlots : ∀ n (l : Line), l ∈ (slotsOf r.classSlots c).flatMap (emitSlotWords n) →
      Line.uses l = [] := by
    intro n l hl
    obtain ⟨s, _, hl⟩ := List.mem_flatMap.mp hl
    simp only [emitSlotWords, List.mem_cons, List.not_mem_nil, or_false] at hl
    rcases hl with rfl | rfl | rfl <;> rfl
  unfold emitClass
  refine ⟨?_, ?_, DefinedFirst.of_no_uses (hSlots _)⟩
  · intro w hw
    have hParent : w ∈ (c.superclass.map mangled).toList := hw
    cases hc : c.superclass with
    | none =>
      rw [hc] at hParent
      cases hParent
    | some parent =>
      have hEq : w = mangled parent := by simpa [hc] using hParent
      rw [hEq]
      exact .inl (h parent hc)
  · intro w hw
    have hEq : w = factorUserName (lower c.name) := by
      simpa [Line.uses, toksUserWords, Tok.userWords, userTok, Target.userWord?] using hw
    exact .inl (.inr (by simp [Line.defines, hEq]))

theorem userTok_words (w : String) : (userTok w).userWords = [w] := rfl

theorem ndrop_userWords (n : Nat) : toksUserWords (ndrop n) = [] := by
  have hChain : ∀ n, toksUserWords (dropChain n) = [] := by
    intro n
    induction n using dropChain.induct with
    | case1 => rfl
    | case2 => rfl
    | case3 n ih =>
      rw [dropChain, toksUserWords, ih]
      rfl
  unfold ndrop
  split
  · rfl
  · exact hChain n

theorem binds_userWords (names : List String) :
    toksUserWords (names.map fun n => Tok.bind (some n)) = [] := by
  induction names with
  | nil => rfl
  | cons n ns ih =>
    rw [List.map_cons, toksUserWords, ih]
    rfl

/-- The wrapper of a generic names its three shadows. -/
theorem wrapper_uses (n : String) (numIn numOut : Nat) :
    ∀ w ∈ Line.uses (emitGenericWrapper n numIn numOut),
      w ∈ [n ++ ":before", n ++ ":primary", n ++ ":after"] := by
  intro w hw
  simp only [emitGenericWrapper, Line.uses, toksUserWords_append, toksUserWords, List.mem_append,
    nameToks_userWords, binds_userWords, userTok_words] at hw
  by_cases hIn : 0 < numIn
  · simp [hIn, toksUserWords_append, toksUserWords, nameToks_userWords, userTok_words] at hw
    rcases hw with (hw | hw) | hw <;> simp [hw]
  · simp [hIn, toksUserWords] at hw
    simp [hw]

theorem emitGeneric_ordered (g : GenericDef) (aux : List String) :
    Ordered known (emitGeneric g aux) := by
  unfold emitGeneric
  dsimp only
  split
  · -- the shadows come first, and everything behind them names shadows only
    have hShadows : Ordered known [
        .generic (mangled g.name ++ ":primary") ⟨g.effect.inputs, g.effect.outputs⟩,
        .generic (mangled g.name ++ ":before") ⟨g.effect.inputs, []⟩,
        .generic (mangled g.name ++ ":after") ⟨g.effect.inputs, []⟩] := by
      apply ordered_of_no_uses
      intro l hl
      simp only [List.mem_cons, List.not_mem_nil, or_false] at hl
      rcases hl with rfl | rfl | rfl <;> rfl
    rw [Ordered.append, Ordered.append]
    refine ⟨⟨hShadows, ?_⟩, ?_⟩
    · split
      · refine ⟨?_, ?_, trivial⟩
        · intro w hw
          have hEq : w = mangled g.name ++ ":before" := by
            simpa [Line.uses, ndrop_userWords] using hw
          exact .inl (.inr (by simp [Line.defines, hEq]))
        · intro w hw
          have hEq : w = mangled g.name ++ ":after" := by
            simpa [Line.uses, ndrop_userWords] using hw
          exact .inl (.inl (.inr (by simp [Line.defines, hEq])))
      · trivial
    · rw [ordered_single]
      intro w hw
      have hShadow := wrapper_uses _ _ _ w hw
      refine .inl (.inr (List.mem_flatMap.mpr ?_))
      simp only [List.mem_cons, List.not_mem_nil, or_false] at hShadow
      rcases hShadow with rfl | rfl | rfl
      · exact ⟨.generic (mangled g.name ++ ":before") ⟨g.effect.inputs, []⟩, by simp,
          by simp [Line.defines]⟩
      · exact ⟨.generic (mangled g.name ++ ":primary") ⟨g.effect.inputs, g.effect.outputs⟩, by simp,
          by simp [Line.defines]⟩
      · exact ⟨.generic (mangled g.name ++ ":after") ⟨g.effect.inputs, []⟩, by simp,
          by simp [Line.defines]⟩
  · exact ordered_single.mpr fun w hw => absurd hw (by simp [Line.uses])

theorem emitConstant_ordered (c : ConstantDef) {r : Sema} (hWide : Wide r)
    (h : ∀ w ∈ Item.refs r (.constant c), known w ∨ w = mangled c.name) :
    Ordered known [emitConstant c r] := by
  rw [ordered_single]
  intro w hw
  unfold emitConstant at hw ⊢
  cases hc : c.value with
  | int v => simp [hc, Line.uses, Tok.userWords] at hw
  | float v => simp [hc, Line.uses, Tok.userWords] at hw
  | computed exprs =>
    rw [hc] at hw
    have hRef : w ∈ Item.refs r (.constant c) := by
      have hBody := (mem_emitExprs hWide w exprs).mp hw
      simpa [Item.refs, hc] using hBody
    have hKnown := h w hRef
    simpa [Line.defines] using hKnown

/-- The forms of one item among the declarations. -/
theorem declaration_ordered (item : Item) (hWide : Wide e.sema)
    (hRefs : Item.isHoisted item = true → ∀ w ∈ Item.refs e.sema item,
      known w ∨ (Item.isColon item = false ∧ w ∈ Item.defined e item))
    (hParent : ∀ c, item = .class_ c → ∀ parent, c.superclass = some parent →
      known (mangled parent)) :
    Ordered known (item.declaration e.sema e.aux) := by
  match item with
  | .variable v =>
    simp only [Item.declaration, emitVariable]
    split
    · apply ordered_of_no_uses
      intro l hl
      simp only [List.mem_cons, List.not_mem_nil, or_false] at hl
      rcases hl with rfl | rfl <;> rfl
    · exact emitStorage_ordered rfl rfl
  | .constant c =>
    apply emitConstant_ordered c hWide
    intro w hw
    rcases hRefs rfl w hw with hKnown | ⟨_, hOwn⟩
    · exact .inl hKnown
    · exact .inr (by simpa [Item.defined] using hOwn)
  | .create c => exact emitStorage_ordered rfl rfl
  | .collection c => exact emitStorage_ordered rfl rfl
  | .templateInstance t => exact emitStorage_ordered rfl (emitDoesBody_userWords _)
  | .value v =>
    apply ordered_of_no_uses
    intro l hl
    simp only [Item.declaration, emitValueDecl, List.mem_cons, List.not_mem_nil, or_false] at hl
    rcases hl with rfl | rfl <;> rfl
  | .class_ c => exact emitClass_ordered c e.sema fun parent hp => hParent c rfl parent hp
  | .generic g => exact emitGeneric_ordered g e.aux
  | .rawFactor raw =>
    exact ordered_single.mpr fun w hw => absurd hw (by simp [Line.uses])
  | .definition _ | .topLevel _ _ | .template _ | .method _ | .needs _ _ => trivial

/-- Every item but a colon definition has its words among the declarations. -/
theorem declaration_defines (item : Item) (h : Item.isColon item = false) :
    ∀ w ∈ Item.defined e item, w ∈ (item.declaration e.sema e.aux).flatMap Line.defines := by
  match item with
  | .variable v =>
    simp only [Item.declaration, emitVariable]
    split <;> simp [Item.defined, Line.defines, emitStorage]
  | .constant c =>
    simp only [Item.declaration, emitConstant]
    split <;> simp [Item.defined, Line.defines]
  | .create c => simp [Item.declaration, emitCreate, emitStorage, Item.defined, Line.defines]
  | .collection c => simp [Item.declaration, emitCollection, emitStorage, Item.defined, Line.defines]
  | .templateInstance t =>
    simp [Item.declaration, emitTemplateInstance, emitStorage, Item.defined, Line.defines]
  | .value v => simp [Item.declaration, emitValueDecl, Item.defined, Line.defines]
  | .class_ c =>
    have hSlots : ∀ w, w ∈ (slotsOf e.sema.classSlots c).flatMap (fun s =>
        [factorUserName (lower c.name ++ ">" ++ s), factorUserName (s ++ ">>" ++ lower c.name),
          factorUserName (lower c.name ++ "." ++ s ++ "!")]) →
        w ∈ ((slotsOf e.sema.classSlots c).flatMap (emitSlotWords (lower c.name))).flatMap
          Line.defines := by
      intro w hw
      obtain ⟨s, hs, hw⟩ := List.mem_flatMap.mp hw
      rw [List.flatMap_assoc]
      refine List.mem_flatMap.mpr ⟨s, hs, ?_⟩
      simpa [emitSlotWords, Line.defines] using hw
    intro w hw
    simp only [Item.defined, classWords, List.mem_cons] at hw
    simp only [Item.declaration, emitClass, List.flatMap_cons, List.mem_append, Line.defines,
      List.mem_cons, List.not_mem_nil, or_false]
    rcases hw with hw | hw | hw | hw
    · exact .inl (.inl hw)
    · exact .inl (.inr (.inl hw))
    · exact .inr (.inl hw)
    · exact .inr (.inr (hSlots w hw))
  | .generic g =>
    intro w hw
    simp only [Item.defined, genericFamily] at hw
    simp only [Item.declaration, emitGeneric]
    by_cases hAux : e.aux.contains (lower g.name) = true
    · rw [if_pos hAux] at hw ⊢
      simp only [List.mem_cons, List.not_mem_nil, or_false] at hw
      rw [List.flatMap_append, List.flatMap_append]
      rcases hw with rfl | rfl | rfl | rfl
      · exact List.mem_append_right _ (by simp [emitGenericWrapper, Line.defines])
      · exact List.mem_append_left _ (List.mem_append_left _ (by simp [Line.defines]))
      · exact List.mem_append_left _ (List.mem_append_left _ (by simp [Line.defines]))
      · exact List.mem_append_left _ (List.mem_append_left _ (by simp [Line.defines]))
    · rw [if_neg hAux] at hw ⊢
      simpa [Line.defines] using hw
  | .definition _ => cases h
  | .rawFactor _ | .topLevel _ _ | .template _ | .method _ | .needs _ _ =>
    intro w hw
    cases hw

/-! The passes, one behind the other. -/

theorem Ordered.mono {known' : String → Prop} (h : ∀ w, known w → known' w) {ir : Ir}
    (hOrdered : Ordered known ir) : Ordered known' ir :=
  DefinedFirst.mono h hOrdered

theorem emitMethod_ordered (m : MethodDef) (hWide : Wide e.sema) (helper : Nat)
    (hBody : ∀ w ∈ bodyRefs e.sema m.body, known w)
    (hTarget : known (methodTarget m e.aux))
    (hSpecializers : ∀ s ∈ emitSpecializerList m, s ≠ "object" → known s) :
    Ordered known (emitMethod m e.sema e.aux helper).1 := by
  have hHeader : ∀ body : List Tok,
      (∀ w ∈ toksUserWords body, known w) →
      ∀ w ∈ Line.uses (.method (methodTarget m e.aux) (emitSpecializerList m) body), known w := by
    intro body hCode w hw
    simp only [Line.uses, List.cons_append, List.mem_cons, List.mem_append, List.mem_filter] at hw
    rcases hw with hw | ⟨hs, hObject⟩ | hw
    · rw [hw]
      exact hTarget
    · exact hSpecializers w hs (by simpa using hObject)
    · exact hCode w hw
  unfold emitMethod
  split
  · refine ⟨fun w hw => .inl (hBody w ((mem_emitBody hWide w m.body).mp hw)), ?_, trivial⟩
    -- the method itself names the helper word in front of it
    intro w hw
    simp only [Line.uses, List.cons_append, List.mem_cons, List.mem_append, List.mem_filter] at hw
    rcases hw with hw | ⟨hs, hObject⟩ | hw
    · rw [hw]
      exact .inl (.inl hTarget)
    · exact .inl (.inl (hSpecializers w hs (by simpa using hObject)))
    · have hHelper : w = methodHelperName m (helper + 1) := by
        simpa [toksUserWords, userTok_words] using hw
      exact .inl (.inr (by simp [Line.defines, hHelper]))
  · apply ordered_single.mpr
    intro w hw
    exact .inl (hHeader _ (fun w hw => hBody w ((mem_emitBody hWide w m.body).mp hw)) w hw)

theorem emitMethods_ordered (hWide : Wide e.sema) (items : List Item) (helper : Nat)
    (hBody : ∀ m, .method m ∈ items → ∀ w ∈ bodyRefs e.sema m.body, known w)
    (hTarget : ∀ m, .method m ∈ items → known (methodTarget m e.aux))
    (hSpecializers : ∀ m, .method m ∈ items → ∀ s ∈ emitSpecializerList m, s ≠ "object" → known s) :
    Ordered known (emitMethods e.sema e.aux items helper).1 := by
  induction items generalizing helper known with
  | nil => trivial
  | cons item items ih =>
    have hRest : ∀ (known' : String → Prop) helper', (∀ w, known w → known' w) →
        Ordered known' (emitMethods e.sema e.aux items helper').1 := by
      intro known' helper' hMono
      apply ih
      · exact fun m hm w hw => hMono w (hBody m (List.mem_cons_of_mem _ hm) w hw)
      · exact fun m hm => hMono _ (hTarget m (List.mem_cons_of_mem _ hm))
      · exact fun m hm s hs hObject =>
          hMono s (hSpecializers m (List.mem_cons_of_mem _ hm) s hs hObject)
    cases item with
    | method m =>
      show Ordered known (_ ++ _)
      rw [Ordered.append]
      refine ⟨?_, hRest _ _ fun w hw => .inl hw⟩
      exact emitMethod_ordered m hWide helper (hBody m List.mem_cons_self)
        (hTarget m List.mem_cons_self) (hSpecializers m List.mem_cons_self)
    | _ => exact hRest known helper fun _ hw => hw

theorem colonWord_defines {d : Definition} :
    mangled d.name ∈ (Item.colonWord e.sema (.definition d)).flatMap Line.defines := by
  simp only [Item.colonWord, emitDefinition]
  split
  · simp [Line.defines]
  · split
    · split <;> simp [Line.defines]
    · simp [Line.defines]

theorem colonWord_uses (hWide : Wide e.sema) (d : Definition) :
    ∀ w ∈ Line.uses (emitDefinition d e.sema), w ∈ bodyRefs e.sema d.body := by
  intro w hw
  apply (mem_emitBody hWide w d.body).mp
  unfold emitDefinition at hw
  dsimp only at hw
  split at hw
  · exact hw
  · split at hw
    · split at hw
      · simpa [Line.uses, toksUserWords_append, nameToks_userWords] using hw
      · exact hw
    · exact hw

theorem execution_ordered (item : Item) (hWide : Wide e.sema)
    (h : Item.isHoisted item = false → ∀ w ∈ Item.refs e.sema item, known w) :
    Ordered known (item.execution e.sema) := by
  match item with
  | .topLevel exprs span =>
    apply ordered_single.mpr
    intro w hw
    exact .inl (h rfl w ((mem_emitExprs hWide w exprs).mp hw))
  | .value v =>
    apply ordered_single.mpr
    intro w hw
    have hBody : w ∈ toksUserWords (emitExprs e.sema v.initial) := by
      simpa [emitValueSeed, Line.uses, toksUserWords_append, toksUserWords, Tok.userWords, setGlobal,
        Target.userWord?] using hw
    exact .inl (h rfl w ((mem_emitExprs hWide w v.initial).mp hBody))
  | .definition _ | .variable _ | .constant _ | .create _ | .collection _ | .template _
  | .templateInstance _ | .class_ _ | .generic _ | .method _ | .rawFactor _ | .needs _ _ => trivial

theorem declared_defines (items : List Item) :
    ∀ w ∈ e.declared items,
      w ∈ (items.flatMap (Item.declaration e.sema e.aux)).flatMap Line.defines := by
  intro w hw
  obtain ⟨item, hi, hw⟩ := List.mem_flatMap.mp hw
  obtain ⟨hi, hColon⟩ := List.mem_filter.mp hi
  rw [List.flatMap_assoc]
  exact List.mem_flatMap.mpr ⟨item, hi, declaration_defines item (by simpa using hColon) w hw⟩

theorem defined_of_item {items : List Item} {item : Item} (hi : item ∈ items) {w : String}
    (hw : w ∈ Item.defined e item) :
    w ∈ (items.flatMap (Item.declaration e.sema e.aux)).flatMap Line.defines ∨
      w ∈ (items.flatMap (Item.colonWord e.sema)).flatMap Line.defines := by
  cases hColon : Item.isColon item with
  | false =>
    rw [List.flatMap_assoc]
    exact .inl (List.mem_flatMap.mpr ⟨item, hi, declaration_defines item hColon w hw⟩)
  | true =>
    cases item with
    | definition d =>
      have hEq : w = mangled d.name := by simpa [Item.defined] using hw
      rw [List.flatMap_assoc, List.flatMap_assoc]
      exact .inr (List.mem_flatMap.mpr ⟨_, hi, hEq ▸ colonWord_defines⟩)
    | _ => cases hColon

theorem mem_of_part {items pre post : List Item} {item other : Item}
    (hItems : items = pre ++ item :: post) (h : other ∈ pre ++ [item]) : other ∈ items := by
  rw [hItems]
  rcases List.mem_append.mp h with hPre | hOwn
  · exact List.mem_append_left _ hPre
  · exact List.mem_append_right _ (List.mem_singleton.mp hOwn ▸ List.mem_cons_self)

/-- A name declared by a part of the items is declared by all of them. -/
theorem declared_mono {items part : List Item} (h : ∀ item ∈ part, item ∈ items) :
    ∀ w ∈ e.declared part, w ∈ e.declared items := by
  intro w hw
  obtain ⟨item, hi, hw⟩ := List.mem_flatMap.mp hw
  obtain ⟨hi, hColon⟩ := List.mem_filter.mp hi
  exact List.mem_flatMap.mpr ⟨item, List.mem_filter.mpr ⟨h item hi, hColon⟩, hw⟩

section Passes

variable {before : List Eval}

theorem Placed.declarations (h : Placed before e) (hWide : Wide e.sema)
    (hKnown : ∀ w ∈ before.flatMap Eval.defined, known w) :
    Ordered known (e.items.flatMap (Item.declaration e.sema e.aux)) := by
  refine (DefinedFirst.flatMap _ _).mpr fun pre item post hItems => ?_
  apply declaration_ordered item hWide
  · intro hHoisted w hw
    rcases h.hoisted _ (mem_splits.mpr ⟨post, hItems⟩) hHoisted w hw with hBefore | hHere
    · exact .inl (.inl (hKnown w hBefore))
    · unfold Eval.declared at hHere
      rw [List.filter_append, List.flatMap_append, List.mem_append] at hHere
      rcases hHere with hPre | hOwn
      · exact .inl (.inr (declared_defines pre w hPre))
      · -- a class may name itself in its own slots
        obtain ⟨item', hi, hDefined⟩ := List.mem_flatMap.mp hOwn
        obtain ⟨hSingle, hColon⟩ := List.mem_filter.mp hi
        obtain rfl := List.mem_singleton.mp hSingle
        exact .inr ⟨by simpa using hColon, hDefined⟩
  · intro c hc parent hParent
    subst hc
    rcases h.parents _ (mem_splits.mpr ⟨post, hItems⟩) (mangled parent)
      (by simp [Item.parent, hParent]) with hBefore | hHere
    · exact .inl (hKnown _ hBefore)
    · exact .inr (declared_defines pre _ hHere)

theorem Placed.methods (h : Placed before e) (hWide : Wide e.sema)
    (hKnown : ∀ w ∈ before.flatMap Eval.defined, known w)
    (hDeclared : ∀ w ∈ e.declared e.items, known w) :
    Ordered known (emitMethods e.sema e.aux e.items e.helper).1 := by
  have hEarlier : ∀ w, w ∈ before.flatMap Eval.defined ∨ w ∈ e.declared e.items → known w :=
    fun w hw => hw.elim (hKnown w) (hDeclared w)
  apply emitMethods_ordered hWide
  · intro m hm w hw
    obtain ⟨pre, post, hItems⟩ := List.append_of_mem hm
    rcases h.hoisted _ (mem_splits.mpr ⟨post, hItems⟩) rfl w hw with hBefore | hHere
    · exact hKnown w hBefore
    · exact hDeclared w (declared_mono (fun _ => mem_of_part hItems) w hHere)
  · exact fun m hm => hEarlier _ (h.targets m (mem_methods.mpr hm))
  · exact fun m hm s hs hObject => hEarlier s (h.specializers m (mem_methods.mpr hm) s hs hObject)

theorem Placed.colonWords (h : Placed before e) (hWide : Wide e.sema)
    (hKnown : ∀ w ∈ before.flatMap Eval.defined, known w)
    (hDeclared : ∀ w ∈ (e.items.flatMap (Item.declaration e.sema e.aux)).flatMap Line.defines,
      known w) :
    Ordered known (e.items.flatMap (Item.colonWord e.sema)) := by
  refine (DefinedFirst.flatMap _ _).mpr fun pre item post hItems => ?_
  cases item with
  | definition d =>
    apply ordered_single.mpr
    intro w hw
    have hRef := colonWord_uses hWide d w hw
    rcases h.plain _ (mem_splits.mpr ⟨post, hItems⟩) rfl w hRef with hBefore | hHere
    · exact .inl (.inl (hKnown w hBefore))
    · rw [List.flatMap_append, List.mem_append] at hHere
      rcases hHere with hPre | hOwn
      · obtain ⟨item', hi, hw⟩ := List.mem_flatMap.mp hPre
        rcases defined_of_item hi hw with hDecl | hColon
        · have hAll : w ∈ (e.items.flatMap (Item.declaration e.sema e.aux)).flatMap
              Line.defines := by
            rw [hItems, List.flatMap_append, List.flatMap_append]
            exact List.mem_append_left _ hDecl
          exact .inl (.inl (hDeclared w hAll))
        · exact .inl (.inr hColon)
      · -- the word's own name: recursion
        have hEq : w = mangled d.name := by simpa [Item.defined] using hOwn
        have hOwnDef : mangled d.name ∈ (Item.colonWord e.sema (.definition d)).flatMap
            Line.defines := colonWord_defines
        rw [hEq]
        exact .inr (by simpa [Item.colonWord] using hOwnDef)
  | _ => trivial

theorem Placed.executions (h : Placed before e) (hWide : Wide e.sema)
    (hKnown : ∀ w ∈ before.flatMap Eval.defined, known w)
    (hItemKnown : ∀ item ∈ e.items, ∀ w ∈ Item.defined e item, known w) :
    Ordered known (e.items.flatMap (Item.execution e.sema)) := by
  refine (DefinedFirst.flatMap _ _).mpr fun pre item post hItems => ?_
  apply execution_ordered item hWide
  intro hPlain w hw
  rcases h.plain _ (mem_splits.mpr ⟨post, hItems⟩) hPlain w hw with hBefore | hHere
  · exact .inl (hKnown w hBefore)
  · obtain ⟨item', hi, hw⟩ := List.mem_flatMap.mp hHere
    exact .inl (hItemKnown item' (mem_of_part hItems hi) w hw)

end Passes

/-- The lines of one compile: a prologue, the four passes, and the flush at the end. -/
theorem Eval.ir_passes (e : Eval) :
    e.ir = [.using_ (vocabsNeeded e.sema), .inScratchpad] ++
      e.items.flatMap (Item.declaration e.sema e.aux) ++
      (emitMethods e.sema e.aux e.items e.helper).1 ++ e.items.flatMap (Item.colonWord e.sema) ++
      e.items.flatMap (Item.execution e.sema) ++ [.flush] := rfl

/-- The source of one compile, behind that of the compiles before it. -/
theorem Placed.ordered {before : List Eval} (h : Placed before e) (hWide : Wide e.sema)
    (hKnown : ∀ w ∈ before.flatMap Eval.defined, known w) : Ordered known e.ir := by
  rw [e.ir_passes]
  simp only [Ordered.append]
  refine ⟨⟨⟨⟨⟨?_, ?_⟩, ?_⟩, ?_⟩, ?_⟩, ?_⟩
  · apply ordered_of_no_uses
    intro l hl
    simp only [List.mem_cons, List.not_mem_nil, or_false] at hl
    rcases hl with rfl | rfl <;> rfl
  · exact h.declarations hWide fun w hw => .inl (hKnown w hw)
  · apply h.methods hWide fun w hw => .inl (hKnown w hw)
    intro w hw
    rw [List.flatMap_append, List.mem_append]
    exact .inr (.inr (declared_defines e.items w hw))
  · apply h.colonWords hWide fun w hw => .inl (hKnown w hw)
    intro w hw
    simp only [List.flatMap_append, List.mem_append]
    exact .inr (.inl (.inr hw))
  · apply h.executions hWide fun w hw => .inl (hKnown w hw)
    intro item hi w hw
    simp only [List.flatMap_append, List.mem_append]
    rcases defined_of_item hi hw with hDecl | hColon
    · exact .inr (.inl (.inl (.inr hDecl)))
    · exact .inr (.inr hColon)
  · apply ordered_of_no_uses
    intro l hl
    rw [List.mem_singleton.mp hl]
    rfl

theorem defined_emitted (es : List Eval) :
    ∀ w ∈ es.flatMap Eval.defined, w ∈ (emitted es).flatMap Line.defines := by
  intro w hw
  obtain ⟨e, he, hw⟩ := List.mem_flatMap.mp hw
  obtain ⟨item, hi, hw⟩ := List.mem_flatMap.mp hw
  unfold emitted
  rw [List.flatMap_assoc]
  refine List.mem_flatMap.mpr ⟨e, he, ?_⟩
  rw [e.ir_passes]
  simp only [List.flatMap_append, List.mem_append]
  rcases defined_of_item hi hw with hDecl | hColon
  · exact .inl (.inl (.inl (.inl (.inr hDecl))))
  · exact .inl (.inl (.inr hColon))

theorem ordered_of_placed {es : List Eval} (hWide : ∀ e ∈ es, Wide e.sema)
    (h : ∀ p ∈ splits es, Placed p.1 p.2) : Ordered (fun _ => False) (emitted es) := by
  refine (DefinedFirst.flatMap _ _).mpr fun before e after hEs => ?_
  refine (h (before, e) (mem_splits.mpr ⟨after, hEs⟩)).ordered (hWide e (by simp [hEs])) ?_
  exact fun w hw => .inr (defined_emitted before w hw)

end

/-- In a session whose compiles are all placed, every user word is defined in front of its uses. -/
theorem session_ordered (host : Host) (fs : FileSystem) (sources : List String)
    (h : ∀ p ∈ splits (evals host fs sources .new .start), Placed p.1 p.2) :
    Ordered (fun _ => False) (emitted (evals host fs sources .new .start)) :=
  ordered_of_placed (evals_wide host fs sources .new .start) h

/-- A constant computed by a word of the compile before, and a word that uses it. -/
theorem session_ordered_twoCompiles :
    Ordered (fun _ => False) (emitted (evals noLet noFiles
      [": f 1 ;", "f constant c : g c f ; g"] .new .start)) :=
  session_ordered noLet noFiles _ (by decide +kernel)

/-- The word and the constant in one compile: the constant is written in front of the word. -/
theorem session_not_ordered :
    ¬ ∀ sources : List String, PointsBack (evals noLet noFiles sources .new .start) →
      Ordered (fun _ => False) (emitted (evals noLet noFiles sources .new .start)) := by
  intro h
  have hOrdered := h [": f 1 ; f constant c"] (by unfold PointsBack; decide +kernel)
  unfold Ordered at hOrdered
  exact absurd hOrdered (by decide +kernel)

end FactorForth.Correctness
