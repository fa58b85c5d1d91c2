import FactorForth.Correctness.Buffers
import FactorForth.Correctness.MethodDispatch
import FactorForth.Correctness.TokensLeft
import FactorForth.Library.Numerals
import FactorForth.Semantics.NamedLocals

/-! The positions of a generic's inputs: the specialiser list of a method follows its stack comment,
and the wrapper of a generic gives its inputs to each of the three shadows in the order it got them. -/

namespace FactorForth.Correctness
open FactorForth.Library FactorForth.Compiler FactorForth.Semantics

/-! The specialiser list. -/

/-- The class that a stack comment attaches to an input. -/
def attachedClass (input : String) : String :=
  match splitSpecializer input with
  | some (_, cls) => specializerName cls
  | none => "object"

/-- The specialiser at a position is the one that the input there names. -/
theorem specializer_at (span : Span) (inputs : List String) (k i : Nat) :
    ((inputs.zipIdx k).filterMap fun p =>
        (splitSpecializer p.1).map fun s => (⟨p.2, s.1, s.2, span⟩ : MethodSpecializer)).find?
      (fun s => s.position = k + i) =
    (inputs[i]?.bind splitSpecializer).map fun s => ⟨k + i, s.1, s.2, span⟩ := by
  induction inputs generalizing k i with
  | nil => rfl
  | cons input inputs ih =>
    rw [List.zipIdx_cons, List.filterMap_cons]
    have hLater : ∀ j, ((inputs.zipIdx (k + 1)).filterMap fun p =>
        (splitSpecializer p.1).map fun s => (⟨p.2, s.1, s.2, span⟩ : MethodSpecializer)).find?
          (fun s => s.position = k + (j + 1)) =
        (inputs[j]?.bind splitSpecializer).map fun s => ⟨k + (j + 1), s.1, s.2, span⟩ := by
      intro j
      have hShift : k + (j + 1) = k + 1 + j := by rw [Nat.add_comm j, Nat.add_assoc]
      rw [hShift]
      exact ih (k + 1) j
    cases hSplit : splitSpecializer input with
    | none =>
      cases i with
      | zero =>
        -- the later specialisers are of later positions
        have hNone : ((inputs.zipIdx (k + 1)).filterMap fun p =>
            (splitSpecializer p.1).map fun s => (⟨p.2, s.1, s.2, span⟩ : MethodSpecializer)).find?
              (fun s => s.position = k + 0) = none := by
          refine List.find?_eq_none.mpr fun s hs => ?_
          obtain ⟨p, hp, hSome⟩ := List.mem_filterMap.mp hs
          obtain ⟨q, -, rfl⟩ := Option.map_eq_some_iff.mp hSome
          have hLater : k + 1 ≤ p.2 := List.le_snd_of_mem_zipIdx hp
          have hOther : p.2 ≠ k := Nat.ne_of_gt hLater
          simpa using hOther
        simpa [hSplit] using hNone
      | succ j =>
        rw [List.getElem?_cons_succ]
        exact hLater j
    | some s =>
      cases i with
      | zero => simp [hSplit]
      | succ j =>
        rw [List.getElem?_cons_succ, ← hLater j]
        simp

/-- One entry for each input of the comment, which is the class attached to it. -/
theorem emitSpecializerList_eq {m : MethodDef} {raw : StackEffect}
    (hSpecializers : m.specializers = specializers raw.span raw.inputs)
    (hInputs : m.effect.inputs = cleanInputs raw.inputs) :
    emitSpecializerList m =
      if raw.inputs = [] then ["object"] else raw.inputs.map attachedClass := by
  have hLength : m.effect.inputs.length = raw.inputs.length := by rw [hInputs]; simp [cleanInputs]
  unfold emitSpecializerList
  by_cases hNone : raw.inputs = []
  · rw [if_pos hNone, if_pos (by rw [hInputs, hNone]; rfl)]
  · have hSome : ¬ m.effect.inputs.isEmpty = true := by
      rw [List.isEmpty_iff, ← List.length_eq_zero_iff, hLength, List.length_eq_zero_iff]
      exact hNone
    rw [if_neg hSome, if_neg hNone, hLength]
    refine List.ext_getElem (by simp) fun i hi hi' => ?_
    have hIn : i < raw.inputs.length := by simpa using hi
    have hAt := specializer_at raw.span raw.inputs 0 i
    simp only [Nat.zero_add] at hAt
    rw [List.getElem_map, List.getElem_range, List.getElem_map, hSpecializers, specializers, hAt,
      List.getElem?_eq_getElem hIn, Option.bind_some]
    unfold attachedClass
    cases splitSpecializer raw.inputs[i] with
    | none => rfl
    | some s => rfl

/-! The comment in the text. -/

/-- The method stands in the text with this stack comment. -/
structure Commented (toks : List Lex.Token) (m : MethodDef) (raw : StackEffect) : Prop where
  stands : ∃ w kwSpan body span behind, lower w = methodWord m.kind ∧
    parseStackEffect body span = some raw ∧
    ⟨.code (.word w), kwSpan⟩ :: ⟨.code (.word m.genericName), m.genericNameSpan⟩ ::
      ⟨.blockComment body, span⟩ :: behind <:+ toks
  specializers : m.specializers = Compiler.specializers raw.span raw.inputs
  inputs : m.effect.inputs = cleanInputs raw.inputs

theorem nameAfter_stands {e : ParseError} {toks : List Lex.Token} {p : Parsed Name toks.length}
    (h : nameAfter e toks = .ok p) : toks = ⟨.code (.word p.value.text), p.value.span⟩ :: p.rest := by
  unfold nameAfter at h
  split at h
  · obtain rfl := Except.ok.inj h
    rfl
  · cases h

theorem requiredEffect_stands {keyword : String} {nameSpan : Span} {toks : List Lex.Token}
    {p : Parsed StackEffect toks.length} (h : requiredEffect keyword nameSpan toks = .ok p) :
    ∃ body span, toks = ⟨.blockComment body, span⟩ :: p.rest ∧
      parseStackEffect body span = some p.value := by
  unfold requiredEffect at h
  split at h
  · split at h
    · rename_i hEffect
      obtain rfl := Except.ok.inj h
      exact ⟨_, _, rfl, hEffect⟩
    · cases h
  · cases h

section
variable {parseLet : String → Except String LetLang.LetForm}

theorem methodDefinition_commented {kwSpan : Span} {keyword w : String} {kind : MethodKind}
    {rest toks : List Lex.Token} {p : Parsed Item rest.length}
    (h : methodDefinition parseLet kwSpan keyword kind rest = .ok p) (hw : lower w = methodWord kind)
    (hStands : ⟨.code (.word w), kwSpan⟩ :: rest <:+ toks) {m : MethodDef} (hm : p.value = .method m) :
    ∃ raw, Commented toks m raw := by
  unfold methodDefinition at h
  obtain ⟨name, hName, h⟩ := ok_of_bind h
  obtain ⟨raw, hRaw, h⟩ := ok_of_bind h
  obtain ⟨locals, hLocals, h⟩ := ok_of_bind h
  obtain ⟨body, hBody, h⟩ := ok_of_bind h
  obtain rfl := Except.ok.inj h
  obtain rfl := Item.method.inj hm
  obtain ⟨comment, span, hComment, hEffect⟩ := requiredEffect_stands hRaw
  have hFront := nameAfter_stands hName
  rw [hFront, hComment] at hStands
  exact ⟨raw.value, ⟨w, kwSpan, comment, span, raw.rest, hw, hEffect, hStands⟩, rfl, rfl⟩

/-- Every method of a text has its comment there. -/
theorem parse_commented {toks : List Lex.Token} {prog : Program}
    (h : parse parseLet toks = .ok prog) {m : MethodDef} (hm : .method m ∈ prog.items) :
    ∃ raw, Commented toks m raw := by
  obtain ⟨items, hItems, rfl⟩ := ok_of_map h
  obtain ⟨t, span, rest, read, p, hStands, hOpener, hRead, hValue⟩ :=
    programFrom_opened parseLet hItems hm rfl
  cases t with
  | word w =>
    unfold opener at hOpener
    dsimp only at hOpener
    split at hOpener
    all_goals cases hOpener
    · unfold colonDefinition at hRead
      obtain ⟨name, -, hRead⟩ := ok_of_bind hRead
      obtain ⟨locals, -, hRead⟩ := ok_of_bind hRead
      obtain ⟨body, -, hRead⟩ := ok_of_bind hRead
      obtain rfl := Except.ok.inj hRead
      unfold colonItem at hValue
      dsimp only at hValue
      split at hValue
      · cases hValue
      · cases hValue
    · obtain ⟨name, -, rfl⟩ := ok_of_map hRead
      cases hValue
    · obtain ⟨path, -, rfl⟩ := ok_of_map hRead
      cases hValue
    · obtain ⟨name, -, hRead⟩ := ok_of_bind hRead
      obtain rfl := Except.ok.inj hRead
      cases hValue
    · obtain ⟨name, -, hRead⟩ := ok_of_bind hRead
      obtain ⟨parent, -, hRead⟩ := ok_of_bind hRead
      obtain ⟨slots, -, hRead⟩ := ok_of_bind hRead
      obtain rfl := Except.ok.inj hRead
      cases hValue
    · obtain ⟨name, -, hRead⟩ := ok_of_bind hRead
      obtain ⟨effect, -, hRead⟩ := ok_of_bind hRead
      obtain rfl := Except.ok.inj hRead
      cases hValue
    · rename_i hw
      exact methodDefinition_commented hRead hw hStands hValue
    · rename_i hw
      exact methodDefinition_commented hRead hw hStands hValue
    · rename_i hw
      exact methodDefinition_commented hRead hw hStands hValue
  | _ => cases hOpener

end

/-! The wrapper. -/

/-- Distinct numbers make distinct names, and the stems keep two rows apart. -/
theorem indexed_nodup (stem : String) (n : Nat) : (indexed stem n).Nodup := by
  refine List.Nodup.map (fun i j h => ?_) List.nodup_range
  have hText := congrArg String.toList h
  rw [String.toList_append, String.toList_append] at hText
  exact toString_inj (String.toList_inj.mp (List.append_cancel_left hText))

theorem indexed_length (stem : String) (n : Nat) : (indexed stem n).length = n := by
  simp [indexed]

theorem indexed_apart (n k : Nat) : (indexed "a" n).Disjoint (indexed "r" k) := by
  intro name ha hr
  obtain ⟨i, -, rfl⟩ := List.mem_map.mp ha
  obtain ⟨j, -, hEq⟩ := List.mem_map.mp hr
  have hText := congrArg String.toList hEq
  rw [String.toList_append, String.toList_append] at hText
  cases hText

section Wrapper
variable {Obj World : Type} (V : Vm Obj World)

/-- What a word with locals of its own does. -/
def Line.localsMeaning : Line → Option (Machine Obj World → Machine Obj World → Prop)
  | .localsColon _ inputs _ body => some (called (localsCode V inputs body))
  | _ => none

/-- The inputs go to each of the three shadows as they lay on the stack, and the outputs of the primary
are put back on what the shadow behind it leaves. -/
def Combined (n : String) (numIn numOut : Nat) (m m' : Machine Obj World) : Prop :=
  ∃ ins rest outs below m₁ m₂ m₃, m.stack = ins ++ rest ∧ ins.length = numIn ∧
    V.word (.userDefined (n ++ ":before")) m m₁ ∧
    V.word (.userDefined (n ++ ":primary")) { m₁ with stack := ins ++ m₁.stack } m₂ ∧
    m₂.stack = outs ++ below ∧ outs.length = numOut ∧
    V.word (.userDefined (n ++ ":after")) { m₂ with stack := ins ++ below } m₃ ∧
    m' = { m₃ with stack := outs ++ m₃.stack }

/-- Only the primary runs, and leaves its outputs at least. -/
def PrimaryAlone (n : String) (numOut : Nat) (m m' : Machine Obj World) : Prop :=
  V.word (.userDefined (n ++ ":primary")) m m' ∧ numOut ≤ m'.stack.length

theorem readLocals_call {bound names : List String} (h : names ⊆ bound) (w : String) (ts : List Tok) :
    readLocals bound ((nameToks names ++ [userTok w]) ++ ts) =
      (localToks names ++ [userTok w]) ++ readLocals bound ts := by
  rw [List.append_assoc, readLocals_names h, List.append_assoc]
  rfl

/-- The wrapper reads the inputs in front of each call and the outputs at its end. -/
theorem wrapper_read (n : String) (numIn numOut : Nat) :
    let names := indexed "a" numIn
    let outs := indexed "r" numOut
    let aux := fun kind : String => if 0 < numIn then nameToks names ++ [userTok (n ++ kind)] else []
    let read := fun kind : String => if 0 < numIn then localToks names ++ [userTok (n ++ kind)] else []
    readLocals names (aux ":before" ++ nameToks names ++ userTok (n ++ ":primary") ::
        outs.reverse.map (fun r => .bind (some r)) ++ aux ":after" ++ nameToks outs) =
      read ":before" ++ ((localToks names ++ [userTok (n ++ ":primary")]) ++
        (bindToks outs.reverse ++ (read ":after" ++ localToks outs))) := by
  intro names outs aux read
  have hAux : ∀ (bound : List String) (kind : String) (ts : List Tok), names ⊆ bound →
      readLocals bound (aux kind ++ ts) = read kind ++ readLocals bound ts := by
    intro bound kind ts hNames
    simp only [aux, read]
    split
    · exact readLocals_call hNames _ ts
    · rfl
  have hShape : aux ":before" ++ nameToks names ++ userTok (n ++ ":primary") ::
        outs.reverse.map (fun r => .bind (some r)) ++ aux ":after" ++ nameToks outs =
      aux ":before" ++ ((nameToks names ++ [userTok (n ++ ":primary")]) ++
        (bindToks outs.reverse ++ (aux ":after" ++ (nameToks outs ++ [])))) := by
    simp [bindToks]
  rw [hShape, hAux _ _ _ (List.Subset.refl names), readLocals_call (List.Subset.refl names),
    readLocals_binds, List.reverse_reverse, hAux _ _ _ (List.subset_append_right _ _),
    readLocals_names (List.subset_append_left _ _), readLocals, List.append_nil]

/-- Outputs that are bound and pushed back around `c`. -/
theorem collected_ok {numOut : Nat} {c : Command Obj World PUnit} {m m' : Machine Obj World}
    {env env' : Env Obj} :
    (run V (bindToks (indexed "r" numOut).reverse) >>= fun _ => c >>= fun _ =>
        run V (localToks (indexed "r" numOut))) ⟨m, env⟩ (.ok ⟨⟩ ⟨m', env'⟩) ↔
      ∃ outs below, m.stack = outs ++ below ∧ outs.length = numOut ∧ 
        (c >>= fun _ => run V (localToks (indexed "r" numOut)))
          ⟨{ m with stack := below }, (indexed "r" numOut).zip outs.reverse ++ env⟩
          (.ok ⟨⟩ ⟨m', env'⟩) := by
  rw [run_bindToks, bindInputs_ok, indexed_length]

theorem outputs_ok {numOut : Nat} {outs : List (Value Obj)} (h : outs.length = numOut)
    {m m' : Machine Obj World} {env : Env Obj} :
    (∃ env', run V (localToks (indexed "r" numOut)) ⟨m, (indexed "r" numOut).zip outs.reverse ++ env⟩
        (.ok ⟨⟩ ⟨m', env'⟩)) ↔ m' = { m with stack := outs ++ m.stack } := by
  have hLength : (indexed "r" numOut).length = outs.reverse.length := by
    rw [indexed_length, List.length_reverse, h]
  have hBound := lookup_zip (indexed_nodup "r" numOut) hLength env
  have hRun := run_localToks V hBound (s := ⟨m, (indexed "r" numOut).zip outs.reverse ++ env⟩) rfl
    (fun a => (pure a : Command Obj World PUnit))
  rw [Cmd.bind_pure, List.reverse_reverse] at hRun
  rw [hRun]
  constructor
  · rintro ⟨env', hDone⟩
    exact congrArg State.toMachine (Out.ok.inj hDone).2
  · rintro rfl
    exact ⟨_, rfl⟩

theorem wrapper_meaning (n : String) (numIn numOut : Nat) :
    Line.localsMeaning V (emitGenericWrapper n numIn numOut) =
      some (called (bindInputs ((indexed "a" numIn).map some) >>= fun _ => run V
        ((if 0 < numIn then localToks (indexed "a" numIn) ++ [userTok (n ++ ":before")] else []) ++
          ((localToks (indexed "a" numIn) ++ [userTok (n ++ ":primary")]) ++
            (bindToks (indexed "r" numOut).reverse ++
              ((if 0 < numIn then localToks (indexed "a" numIn) ++ [userTok (n ++ ":after")] else []) ++
                localToks (indexed "r" numOut))))))) := by
  rw [← wrapper_read n numIn numOut]
  unfold emitGenericWrapper Line.localsMeaning localsCode
  have hBound : ((indexed "a" numIn).map some).filterMap id = indexed "a" numIn := by simp
  dsimp only
  rw [hBound]

/-- The wrapper of a generic with inputs. -/
theorem wrapper_combined (n : String) {numIn : Nat} (hIn : 0 < numIn) (numOut : Nat) :
    Line.localsMeaning V (emitGenericWrapper n numIn numOut) = some (Combined V n numIn numOut) := by
  rw [wrapper_meaning, if_pos hIn, if_pos hIn]
  refine congrArg some (funext fun m => funext fun m' => propext ?_)
  have hBound : ∀ {ins : List (Value Obj)}, ins.length = numIn → List.Forall₂
      (fun name v => ((indexed "a" numIn).zip ins.reverse).lookup name = some v)
      (indexed "a" numIn) ins.reverse := by
    intro ins hLength
    have hRow : (indexed "a" numIn).length = ins.reverse.length := by
      rw [indexed_length, List.length_reverse, hLength]
    have hZip := lookup_zip (indexed_nodup "a" numIn) hRow []
    rwa [List.append_nil] at hZip
  have hBehind : ∀ {ins outs : List (Value Obj)}, ins.length = numIn → List.Forall₂
      (fun name v => ((indexed "r" numOut).zip outs.reverse ++
        (indexed "a" numIn).zip ins.reverse).lookup name = some v) (indexed "a" numIn) ins.reverse :=
    fun hLength => lookup_behind (indexed_apart numIn numOut) _ (hBound hLength)
  unfold called Combined
  simp only [bindInputs_ok, run_append V (_ ++ [_]), indexed_length, List.append_nil]
  constructor
  · rintro ⟨env', ins, rest, hStack, hLength, hRun⟩
    rw [handed_ok V (hBound hLength), List.reverse_reverse] at hRun
    obtain ⟨m₁, hBefore, hRun⟩ := hRun
    rw [handed_ok V (hBound hLength), List.reverse_reverse] at hRun
    obtain ⟨m₂, hPrimary, hRun⟩ := hRun
    rw [run_append, run_append V (_ ++ [_]), collected_ok] at hRun
    obtain ⟨outs, below, hOuts, hCount, hRun⟩ := hRun
    rw [handed_ok V (hBehind hLength), List.reverse_reverse] at hRun
    obtain ⟨m₃, hAfter, hRun⟩ := hRun
    have hDone := (outputs_ok V hCount).mp ⟨env', hRun⟩
    refine ⟨ins, rest, outs, below, m₁, m₂, m₃, hStack, hLength, ?_, hPrimary, hOuts, hCount, hAfter, hDone⟩
    have hSame : { m with stack := ins ++ rest } = m := by rw [← hStack]
    rw [← hSame]
    exact hBefore
  · rintro ⟨ins, rest, outs, below, m₁, m₂, m₃, hStack, hLength, hBefore, hPrimary, hOuts, hCount,
      hAfter, hDone⟩
    obtain ⟨env', hRun⟩ := (outputs_ok V hCount).mpr hDone
    refine ⟨env', ins, rest, hStack, hLength, ?_⟩
    rw [handed_ok V (hBound hLength), List.reverse_reverse]
    refine ⟨m₁, ?_, ?_⟩
    · show V.word _ { m with stack := ins ++ rest } m₁
      rw [← hStack]
      exact hBefore
    · rw [handed_ok V (hBound hLength), List.reverse_reverse]
      refine ⟨m₂, hPrimary, ?_⟩
      rw [run_append, run_append V (_ ++ [_]), collected_ok]
      refine ⟨outs, below, hOuts, hCount, ?_⟩
      rw [handed_ok V (hBehind hLength), List.reverse_reverse]
      exact ⟨m₃, hAfter, hRun⟩

/-- Without an input the wrapper calls the primary only. -/
theorem wrapper_alone (n : String) (numOut : Nat) :
    Line.localsMeaning V (emitGenericWrapper n 0 numOut) = some (PrimaryAlone V n numOut) := by
  rw [wrapper_meaning, if_neg (Nat.lt_irrefl 0), if_neg (Nat.lt_irrefl 0)]
  refine congrArg some (funext fun m => funext fun m' => propext ?_)
  unfold called PrimaryAlone
  show (∃ env, ((pure ⟨⟩ : Command Obj World PUnit) >>= fun _ => run V ([userTok (n ++ ":primary")] ++
    (bindToks (indexed "r" numOut).reverse ++ localToks (indexed "r" numOut)))) ⟨m, []⟩
      (.ok ⟨⟩ ⟨m', env⟩)) ↔ _
  simp only [pure_bind, run_append, userTok_bind, run_bindToks, bindInputs_ok, indexed_length]
  constructor
  · rintro ⟨env, m₂, hPrimary, outs, below, hOuts, hCount, hRun⟩
    obtain rfl := (outputs_ok V hCount).mp ⟨env, hRun⟩
    have hSame : { m₂ with stack := outs ++ below } = m₂ := by rw [← hOuts]
    refine ⟨?_, ?_⟩
    · rw [← hSame] at hPrimary
      exact hPrimary
    · show numOut ≤ (outs ++ below).length
      rw [List.length_append, hCount]
      exact Nat.le_add_right _ _
  · rintro ⟨hPrimary, hEnough⟩
    have hSplit := (List.take_append_drop numOut m'.stack).symm
    have hCount : (m'.stack.take numOut).length = numOut := List.length_take_of_le hEnough
    have hSame : m' = { m' with stack := m'.stack.take numOut ++ m'.stack.drop numOut } := by
      rw [← hSplit]
    obtain ⟨env, hRun⟩ := (@outputs_ok _ _ V _ _ hCount { m' with stack := m'.stack.drop numOut } m' []).mpr
      hSame
    exact ⟨env, m', hPrimary, _, _, hSplit, hCount, hRun⟩

end Wrapper

/-! An accepted compile. -/

theorem emitMethods_line (r : Sema) (aux : List String) {items : List Item} {m : MethodDef}
    (h : .method m ∈ items) (helper : Nat) :
    ∃ body, .method (methodTarget m aux) (emitSpecializerList m) body ∈
      (emitMethods r aux items helper).1 := by
  induction items generalizing helper with
  | nil => cases h
  | cons item items ih =>
    rcases List.mem_cons.mp h with rfl | hLater
    · have hOwn : ∃ body, .method (methodTarget m aux) (emitSpecializerList m) body ∈
          (emitMethod m r aux helper).1 := by
        unfold emitMethod
        split
        · exact ⟨_, List.mem_cons_of_mem _ List.mem_cons_self⟩
        · exact ⟨_, List.mem_cons_self⟩
      obtain ⟨body, hBody⟩ := hOwn
      exact ⟨body, List.mem_append_left _ hBody⟩
    · cases item with
      | method m' =>
        obtain ⟨body, hBody⟩ := ih hLater (emitMethod m' r aux helper).2
        exact ⟨body, List.mem_append_right _ hBody⟩
      | _ => exact ih hLater helper

theorem wrapper_emitted {e : Eval} {gd : GenericDef} (hGeneric : .generic gd ∈ e.items)
    (hAux : e.hasAux gd.name = true) :
    emitGenericWrapper (mangled gd.name) gd.effect.inputs.length gd.effect.outputs.length ∈ e.ir := by
  have hOwn : emitGenericWrapper (mangled gd.name) gd.effect.inputs.length gd.effect.outputs.length ∈
      emitGeneric gd e.aux := by
    have hContains : e.aux.contains (lower gd.name) = true := hAux
    unfold emitGeneric
    rw [if_pos hContains]
    exact List.mem_append_right _ List.mem_cons_self
  rw [ir_eq]
  exact List.mem_append_left _ (List.mem_append_right _ (List.mem_flatMap.mpr ⟨_, hGeneric, hOwn⟩))

section Compile
variable (host : Host) (fs : FileSystem) {source : String} {ctx : CompileContext} {counters : Counters}

/-- The passes leave the head of a method as it was read. -/
theorem method_origin {own : Item} {targets : Dict Span Target} {k : Nat} {m : MethodDef}
    (h : Item.lowerExit targets ((own.lowerQdup k).1.lowerRecurse) = .method m) :
    ∃ m', own = .method m' ∧ m = { m' with body := (qdupSeq m'.body k).1 } := by
  cases own with
  | method m' => exact ⟨m', rfl, (Item.method.inj h).symm⟩
  | constant c' =>
    rcases c' with ⟨name, nameSpan, value, span, flavour⟩
    cases value <;> cases h
  | _ => cases h

theorem merged_commented (source : String) (ctx : CompileContext) {m : MethodDef}
    (h : .method m ∈ mergedItems host fs source ctx) :
    ∃ text toks raw, lex text = .ok toks ∧ Commented toks m raw := by
  refine merged_parsed host fs (P := fun item => ∀ m, item = .method m →
    ∃ text toks raw, lex text = .ok toks ∧ Commented toks m raw) ?_ source ctx _ h m rfl
  rintro contents items hItems item hItem m rfl
  unfold compileItems at hItems
  split at hItems
  · cases hItems
  · rename_i toks hLex
    split at hItems
    · cases hItems
    · rename_i prog hParse
      obtain rfl := Except.ok.inj hItems
      obtain ⟨raw, hRaw⟩ := parse_commented hParse hItem
      exact ⟨contents, toks, raw, hLex, hRaw⟩

theorem compile_commented {e : Eval} (h : compileEval host fs source ctx counters = some e)
    {m : MethodDef} (hm : m ∈ e.methods) :
    ∃ text toks raw, lex text = .ok toks ∧ Commented toks m raw := by
  unfold compileEval at h
  split at h
  · cases h
  · rename_i sema hSema
    obtain rfl := Option.some.inj h
    obtain ⟨own, hOwn, k, hItem⟩ := mem_program hSema (mem_methods.mp hm)
    obtain ⟨m', rfl, rfl⟩ := method_origin hItem.symm
    have hMerged : .method m' ∈ mergedItems host fs source ctx := by
      rcases mem_expandedItems hOwn with hIn | ⟨exprs, span, hTop⟩ | ⟨exprs, span, u, -, -, hMade⟩
      · exact hIn
      · cases hTop
      · cases hMade
    obtain ⟨text, toks, raw, hLex, hRaw⟩ := merged_commented host fs source ctx hMerged
    exact ⟨text, toks, raw, hLex, hRaw.stands, hRaw.specializers, hRaw.inputs⟩

/-- A method of an accepted compile has one specialiser for each input of its comment, which is as
many as a generic of that many inputs has; a wrapper combines the three shadows of its generic. -/
theorem compile_positions {e : Eval} (h : compileEval host fs source ctx counters = some e) :
    (∀ m ∈ e.methods, ∃ text toks raw, lex text = .ok toks ∧ Commented toks m raw ∧
      (∃ body, .method (methodTarget m e.aux) (emitSpecializerList m) body ∈ e.ir) ∧
      ∀ gd : GenericDef, raw.inputs.length = gd.effect.inputs.length →
        if gd.effect.inputs = [] then emitSpecializerList m = ["object"]
        else (emitSpecializerList m).length = gd.effect.inputs.length ∧
          ∀ (i : Nat) (input : String), raw.inputs[i]? = some input →
            (emitSpecializerList m)[i]? = some (attachedClass input)) ∧
    ∀ gd, .generic gd ∈ e.items → e.hasAux gd.name = true →
      (∀ m ∈ e.methods, lower m.genericName = lower gd.name →
        methodTarget m e.aux = mangled gd.name ++ shadow m.kind) ∧
      ∃ wrapper ∈ e.ir, mangled gd.name ∈ Line.defines wrapper ∧
        ∀ (Obj World : Type) (V : Vm Obj World), Line.localsMeaning V wrapper = some
          (if gd.effect.inputs = [] then PrimaryAlone V (mangled gd.name) gd.effect.outputs.length
          else Combined V (mangled gd.name) gd.effect.inputs.length gd.effect.outputs.length) := by
  constructor
  · intro m hm
    obtain ⟨text, toks, raw, hLex, hRaw⟩ := compile_commented host fs h hm
    have hList := emitSpecializerList_eq hRaw.specializers hRaw.inputs
    obtain ⟨body, hBody⟩ := emitMethods_line e.sema e.aux (mem_methods.mp hm) e.helper
    have hLine : .method (methodTarget m e.aux) (emitSpecializerList m) body ∈ e.ir := by
      rw [ir_eq]
      exact List.mem_append_right _ (List.mem_append_left _
        (List.mem_append_left _ (List.mem_append_left _ hBody)))
    refine ⟨text, toks, raw, hLex, hRaw, ⟨body, hLine⟩, fun gd hCount => ?_⟩
    split
    · rename_i hNone
      have hEmpty : raw.inputs = [] := by
        rw [← List.length_eq_zero_iff, hCount, hNone]
        rfl
      rw [hList, if_pos hEmpty]
    · rename_i hSome
      have hNonempty : raw.inputs ≠ [] := by
        rw [← List.length_pos_iff, hCount, List.length_pos_iff]
        exact hSome
      rw [hList, if_neg hNonempty]
      refine ⟨by rw [List.length_map, hCount], fun i input hi => ?_⟩
      rw [List.getElem?_map, hi]
      rfl
  · intro gd hGeneric hAux
    have hContains : e.aux.contains (lower gd.name) = true := hAux
    constructor
    · intro m hm hName
      unfold methodTarget
      rw [mangled_congr hName, hName, hContains]
      cases m.kind <;> rfl
    · refine ⟨emitGenericWrapper (mangled gd.name) gd.effect.inputs.length gd.effect.outputs.length,
        wrapper_emitted hGeneric hAux, ?_, fun Obj World V => ?_⟩
      · exact List.mem_singleton_self _
      · split
        · rename_i hNone
          rw [hNone]
          exact wrapper_alone V _ _
        · rename_i hSome
          exact wrapper_combined V _ (List.length_pos_iff.mpr hSome) _

end Compile

def twoInputs : String :=
  "class: c ; generic: f ( a b -- n ) method-before: f ( a:c b -- ) drop drop ; " ++
    "method: f ( a b -- n ) drop ;"

/-- The class stands at the deeper of two inputs, and the wrapper gives both of them out. -/
theorem compile_positions_two :
    ∃ e, compileEval noLet noFiles twoInputs .new .start = some e ∧
      (∃ m ∈ e.methods, ∃ body, .method (methodTarget m e.aux) ["z-c", "object"] body ∈ e.ir) ∧
      ∃ wrapper ∈ e.ir, "z-f" ∈ Line.defines wrapper ∧ ∀ (Obj World : Type) (V : Vm Obj World),
        Line.localsMeaning V wrapper = some (Combined V "z-f" 2 1) := by
  have hRun : ((compileEval noLet noFiles twoInputs .new .start).map fun e =>
      (e.methods.any fun m => emitSpecializerList m == ["z-c", "object"]) && e.hasAux "f" &&
        (e.generics "f").any fun gd => gd.name == "f" && gd.effect.inputs.length == 2 &&
          gd.effect.outputs.length == 1) = some true := by decide +kernel
  obtain ⟨e, hEval, hFound⟩ := Option.map_eq_some_iff.mp hRun
  simp only [Bool.and_eq_true, List.any_eq_true, beq_iff_eq] at hFound
  obtain ⟨⟨⟨m, hm, hList⟩, hAux⟩, gd, hgd, ⟨hName, hIn⟩, hOut⟩ := hFound
  obtain ⟨hMethods, hGenerics⟩ := compile_positions noLet noFiles hEval
  obtain ⟨text, toks, raw, -, -, ⟨body, hBody⟩, -⟩ := hMethods m hm
  rw [hList] at hBody
  obtain ⟨-, wrapper, hWrapper, hDefines, hMeaning⟩ :=
    hGenerics gd (mem_generics.mp hgd).1 (by rw [hName]; exact hAux)
  have hTwo : gd.effect.inputs ≠ [] := List.length_pos_iff.mp (by rw [hIn]; decide)
  refine ⟨e, hEval, ⟨m, hm, body, hBody⟩, wrapper, hWrapper, ?_, fun Obj World V => ?_⟩
  · rw [hName] at hDefines
    exact hDefines
  · have hCombined := hMeaning Obj World V
    rw [if_neg hTwo, hName, hIn, hOut] at hCombined
    exact hCombined

/-- Each method has as many entries as the generics of its name in the compile have inputs. -/
def EntriesMatch (e : Eval) : Prop :=
  ∀ m ∈ e.methods, ∀ gd ∈ e.generics m.genericName,
    (emitSpecializerList m).length = gd.effect.inputs.length

instance (e : Eval) : Decidable (EntriesMatch e) :=
  inferInstanceAs (Decidable (∀ m ∈ e.methods, ∀ gd ∈ e.generics m.genericName,
    (emitSpecializerList m).length = gd.effect.inputs.length))

/-- A machine on which the word runs and nothing else does. -/
def onlyWord (w : String) : Vm Unit Unit where
  word t m m' := t = .userDefined w ∧ m' = m
  name _ _ _ := False
  letForm _ _ _ := False
  symbol _ := ()
  str _ := ()
  float _ := ()
  isZero _ := false
  same _ _ := false

/-- Without an input a method has an entry still and the wrapper runs without the other shadows; where
the comment of a method is shorter than that of its generic, so is the list. -/
theorem compile_not_positions :
    (∃ e, compileEval noLet noFiles "generic: f ( -- n ) method: f ( -- n ) 1 ;" .new .start =
      some e ∧ ¬ EntriesMatch e) ∧
    (∃ e, compileEval noLet noFiles "generic: f ( a b -- n ) method: f ( a -- n ) ;" .new .start =
      some e ∧ ¬ EntriesMatch e) ∧
    ∃ e, compileEval noLet noFiles "generic: f ( -- ) method-before: f ( -- ) ; method: f ( -- ) ;"
        .new .start = some e ∧ emitGenericWrapper "z-f" 0 0 ∈ e.ir ∧
      ¬ Line.localsMeaning (onlyWord "z-f:primary") (emitGenericWrapper "z-f" 0 0) =
        some (Combined (onlyWord "z-f:primary") "z-f" 0 0) := by
  have hRefuted : ∀ source : String, ((compileEval noLet noFiles source .new .start).map fun e =>
      decide (EntriesMatch e)) = some false →
      ∃ e, compileEval noLet noFiles source .new .start = some e ∧ ¬ EntriesMatch e := by
    intro source hRun
    obtain ⟨e, hEval, hNot⟩ := Option.map_eq_some_iff.mp hRun
    exact ⟨e, hEval, of_decide_eq_false hNot⟩
  refine ⟨hRefuted _ (by decide +kernel), hRefuted _ (by decide +kernel), ?_⟩
  have hRun : ((compileEval noLet noFiles
      "generic: f ( -- ) method-before: f ( -- ) ; method: f ( -- ) ;" .new .start).map fun e =>
        e.hasAux "f" && (e.generics "f").any fun gd => gd.name == "f" &&
          gd.effect.inputs.length == 0 && gd.effect.outputs.length == 0) = some true := by decide +kernel
  obtain ⟨e, hEval, hFound⟩ := Option.map_eq_some_iff.mp hRun
  simp only [Bool.and_eq_true, List.any_eq_true, beq_iff_eq] at hFound
  obtain ⟨hAux, gd, hgd, ⟨hName, hIn⟩, hOut⟩ := hFound
  have hWrapper := wrapper_emitted (mem_generics.mp hgd).1 (by rw [hName]; exact hAux)
  rw [hName, hIn, hOut] at hWrapper
  refine ⟨e, hEval, hWrapper, fun hSame => ?_⟩
  rw [wrapper_alone] at hSame
  -- the primary alone runs on the empty machine, but the shadow in front of it does not
  have hRuns : PrimaryAlone (onlyWord "z-f:primary") "z-f" 0 ⟨[], [], ()⟩ ⟨[], [], ()⟩ :=
    ⟨⟨rfl, rfl⟩, Nat.le_refl 0⟩
  rw [Option.some.inj hSame] at hRuns
  obtain ⟨ins, rest, outs, below, m₁, m₂, m₃, -, -, ⟨hWord, -⟩, -⟩ := hRuns
  exact absurd (Target.userDefined.inj hWord) (by decide)

end FactorForth.Correctness
