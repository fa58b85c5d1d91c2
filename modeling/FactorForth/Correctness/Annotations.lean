import FactorForth.Correctness.RecordedEffects

/-! The stack effect that a colon definition is written with. The effect inferred of the body is asked
first in the plain form, and the stack comment in the two forms with locals. -/

namespace FactorForth.Correctness
open FactorForth.Library FactorForth.Compiler

/-! What a form announces. -/

/-- The names of the inputs and outputs of a definition form; a discarded input has none. -/
def Line.announced : Line → List (Option String) × List String
  | .colon _ effect _ _ => (effect.inputs.map some, effect.outputs)
  | .localsColon _ inputs outputs _ => (inputs, outputs)
  | _ => ([], [])

/-- How many inputs are announced; a row variable stands for any number. -/
def Line.inputCount (line : Line) : Option Nat :=
  if (Line.announced line).1 = [some "..a"] then none else some (Line.announced line).1.length

def Line.outputCount (line : Line) : Option Nat :=
  if (Line.announced line).2 = ["..b"] then none else some (Line.announced line).2.length

/-- The names of a stack comment as they are written. -/
def StackEffect.written (se : StackEffect) : List (Option String) × List String :=
  (se.inputs.map fun n => some (sanitize n), se.outputs.map sanitize)

/-! The counts that are due. -/

/-- The inferred counts, else the declared ones, else row variables. -/
def inferredFirst (declared : Option StackEffect) (synth : Effect) : Option (Nat × Nat) :=
  match synth, declared with
  | .known inputs outputs, _ => some (inputs, outputs)
  | .unknown, some se => some (se.inputs.length, se.outputs.length)
  | .unknown, none => none

/-- The declared counts, else the inferred ones, else row variables. -/
def declaredFirst (declared : Option StackEffect) (synth : Effect) : Option (Nat × Nat) :=
  match declared, synth with
  | some se, _ => some (se.inputs.length, se.outputs.length)
  | none, .known inputs outputs => some (inputs, outputs)
  | none, .unknown => none

/-- The inferred effect goes first, and the names of the comment are kept exactly where nothing is
inferred or its counts are the inferred ones. -/
structure FollowsTable (d : Definition) (synth : Effect) (line : Line) : Prop where
  inputs : Line.inputCount line = (inferredFirst d.effect synth).map Prod.fst
  outputs : Line.outputCount line = (inferredFirst d.effect synth).map Prod.snd
  names : ∀ se, d.effect = some se →
    (Line.announced line = StackEffect.written se ↔ synth = .unknown ∨ synth = se.counts)

/-- Which counts each of the three forms announces. -/
structure Annotated (d : Definition) (synth : Effect) (line : Line) : Prop where
  plain : d.locals = [] → bodyUsesLocals d.body = false → FollowsTable d synth line
  headInputs : d.locals ≠ [] → Line.inputCount line = some d.locals.length
  headOutputs : d.locals ≠ [] →
    Line.outputCount line = (declaredFirst d.effect synth).map Prod.snd
  midInputs : d.locals = [] → bodyUsesLocals d.body = true →
    Line.inputCount line = (declaredFirst d.effect synth).map Prod.fst
  midOutputs : d.locals = [] → bodyUsesLocals d.body = true →
    Line.outputCount line = (declaredFirst d.effect synth).map Prod.snd

/-! No written name is a row variable. -/

theorem sanitize_no_dot (name : String) : '.' ∉ (sanitize name).toList := by
  unfold sanitize
  split
  · decide
  · rw [String.toList_ofList, List.mem_map]
    rintro ⟨c, -, hc⟩
    split at hc
    · cases hc
    · contradiction

theorem sanitizeBound_no_dot (name : String) : '.' ∉ (sanitizeBound name).toList := by
  unfold sanitizeBound
  split
  · exact sanitize_no_dot name
  · rename_i hDot
    unfold lower
    rw [String.toList_ofList, List.mem_map]
    rintro ⟨c, hc, hEq⟩
    rw [toLower_eq_iff (by decide) (by decide)] at hEq
    rw [hEq] at hc
    simp [hc] at hDot

theorem bindingName_no_dot {name text : String} (h : bindingName name = some text) :
    '.' ∉ text.toList := by
  unfold bindingName at h
  split at h
  · cases h
  · obtain rfl := Option.some.inj h
    rw [String.toList_ofList, List.mem_map]
    rintro ⟨c, -, hc⟩
    split at hc
    · cases hc
    · contradiction

theorem letter_no_dot (i : Nat) :
    '.' ∉ (String.singleton (Char.ofNat ('a'.toNat + i % 26))).toList := by
  have hAll : ∀ k < 26, '.' ∉ (String.singleton (Char.ofNat ('a'.toNat + k))).toList := by decide
  exact hAll _ (Nat.mod_lt _ (by decide))

theorem indexed_no_dot (stem : String) (hStem : '.' ∉ stem.toList) (n : Nat) :
    ∀ name ∈ indexed stem n, '.' ∉ name.toList := by
  intro name hName
  obtain ⟨i, -, rfl⟩ := List.mem_map.mp hName
  rw [String.toList_append, List.mem_append]
  rintro (hDot | hDot)
  · exact hStem hDot
  · have hDigits : (toString i).toList = Nat.toDigits 10 i := Nat.toList_repr
    rw [hDigits] at hDot
    cases Nat.isDigit_of_mem_toDigits (by decide) (by decide) hDot

/-- Names without dots are announced by their number. -/
theorem counted_outputs {line : Line} {names : List String} (h : (Line.announced line).2 = names)
    (hDot : ∀ name ∈ names, '.' ∉ name.toList) : Line.outputCount line = some names.length := by
  unfold Line.outputCount
  rw [h, if_neg]
  rintro rfl
  exact hDot "..b" (List.mem_singleton_self _) (by decide)

theorem counted_inputs {line : Line} {names : List (Option String)}
    (h : (Line.announced line).1 = names)
    (hDot : ∀ name, some name ∈ names → '.' ∉ name.toList) :
    Line.inputCount line = some names.length := by
  unfold Line.inputCount
  rw [h, if_neg]
  rintro rfl
  exact hDot "..a" (List.mem_singleton_self _) (by decide)

/-! The three forms. -/

section Forms
variable {d : Definition} {r : Sema} {synth : Effect}

theorem declared_inputs_no_dot (f : String → String) (hf : ∀ n, '.' ∉ (f n).toList)
    (names : List String) : ∀ name, some name ∈ names.map (fun n => some (f n)) →
      '.' ∉ name.toList := by
  intro name hName
  obtain ⟨n, -, hn⟩ := List.mem_map.mp hName
  obtain rfl := Option.some.inj hn
  exact hf n

theorem declared_outputs_no_dot (f : String → String) (hf : ∀ n, '.' ∉ (f n).toList)
    (names : List String) : ∀ name ∈ names.map f, '.' ∉ name.toList := by
  intro name hName
  obtain ⟨n, -, rfl⟩ := List.mem_map.mp hName
  exact hf n

/-- A line that announces these names announces their numbers. -/
theorem counted {line : Line} {inputs : List (Option String)} {outputs : List String}
    (h : Line.announced line = (inputs, outputs))
    (hIn : ∀ name, some name ∈ inputs → '.' ∉ name.toList)
    (hOut : ∀ name ∈ outputs, '.' ∉ name.toList) :
    Line.inputCount line = some inputs.length ∧ Line.outputCount line = some outputs.length :=
  ⟨counted_inputs (by rw [h]) hIn, counted_outputs (by rw [h]) hOut⟩

theorem synth_announced (inputs outputs : Nat) {line : Line}
    (h : Line.announced line = (( synthEffectAnnotation inputs outputs).inputs.map some,
      ( synthEffectAnnotation inputs outputs).outputs)) :
    Line.inputCount line = some inputs ∧ Line.outputCount line = some outputs := by
  have hCounts := counted h ?_ (indexed_no_dot "r" (by decide) outputs)
  · simpa [ synthEffectAnnotation, indexed] using hCounts
  · intro name hName
    obtain ⟨n, hn, hSome⟩ := List.mem_map.mp hName
    obtain rfl := Option.some.inj hSome
    obtain ⟨i, -, rfl⟩ := List.mem_map.mp hn
    exact letter_no_dot i

theorem written_announced {se : StackEffect} {line : Line}
    (h : Line.announced line = StackEffect.written se) :
    Line.inputCount line = some se.inputs.length ∧ Line.outputCount line = some se.outputs.length := by
  have hCounts := counted h (declared_inputs_no_dot sanitize sanitize_no_dot se.inputs)
    (declared_outputs_no_dot sanitize sanitize_no_dot se.outputs)
  simpa using hCounts

/-- The row variables of a form without counts. -/
theorem rowVars_announced {line : Line} (h : Line.announced line = ([some "..a"], ["..b"])) :
    Line.inputCount line = none ∧ Line.outputCount line = none := by
  unfold Line.inputCount Line.outputCount
  rw [h]
  exact ⟨rfl, rfl⟩

theorem table_of_counts {line : Line} {inputs outputs : Nat}
    (hDue : inferredFirst d.effect synth = some (inputs, outputs))
    (hCounts : Line.inputCount line = some inputs ∧ Line.outputCount line = some outputs)
    (hNames : ∀ se, d.effect = some se →
      (Line.announced line = StackEffect.written se ↔ synth = .unknown ∨ synth = se.counts)) :
    FollowsTable d synth line := by
  refine ⟨?_, ?_, hNames⟩
  · rw [hCounts.1, hDue]
    rfl
  · rw [hCounts.2, hDue]
    rfl

/-- The plain form follows the table. -/
theorem plain_table (hSynth : r.bodyEffects.lookup (lower d.name) = some synth)
    (hHead : d.locals = []) (hMid : bodyUsesLocals d.body = false) :
    FollowsTable d synth (emitDefinition d r) := by
  have hLine : Line.announced (emitDefinition d r) =
      (( plainAnnotation d.effect (some synth)).inputs.map some,
        ( plainAnnotation d.effect (some synth)).outputs) := by
    unfold emitDefinition
    dsimp only
    rw [hHead, hMid, hSynth]
    rfl
  cases hDeclared : d.effect with
  | none =>
    have hNames : ∀ se, d.effect = some se → (Line.announced (emitDefinition d r) =
        StackEffect.written se ↔ synth = .unknown ∨ synth = se.counts) := by
      intro se hSe
      rw [hDeclared] at hSe
      cases hSe
    rw [hDeclared] at hLine
    cases synth with
    | unknown =>
      obtain ⟨hIn, hOut⟩ := rowVars_announced hLine
      refine ⟨?_, ?_, hNames⟩
      · rw [hIn, hDeclared]
        rfl
      · rw [hOut, hDeclared]
        rfl
    | known inputs outputs =>
      exact table_of_counts (by rw [hDeclared]; rfl) (synth_announced inputs outputs hLine) hNames
  | some se =>
    rw [hDeclared] at hLine
    have hOther : (Line.announced (emitDefinition d r) = StackEffect.written se ↔
        synth = .unknown ∨ synth = se.counts) → ∀ se', d.effect = some se' →
          (Line.announced (emitDefinition d r) = StackEffect.written se' ↔
            synth = .unknown ∨ synth = se'.counts) := by
      intro hOwn se' hSe
      rw [hDeclared] at hSe
      obtain rfl := Option.some.inj hSe
      exact hOwn
    cases synth with
    | unknown =>
      have hWritten : Line.announced (emitDefinition d r) = StackEffect.written se := by
        rw [hLine]
        simp [ plainAnnotation, declaredAnnotation, StackEffect.written]
      exact table_of_counts (by rw [hDeclared]; rfl) (written_announced hWritten)
        (hOther (iff_of_true hWritten (.inl rfl)))
    | known inputs outputs =>
      by_cases hAgree : se.inputs.length = inputs ∧ se.outputs.length = outputs
      · obtain ⟨rfl, rfl⟩ := hAgree
        have hWritten : Line.announced (emitDefinition d r) = StackEffect.written se := by
          rw [hLine]
          simp [ plainAnnotation, declaredAnnotation, StackEffect.written]
        exact table_of_counts rfl (written_announced hWritten)
          (hOther (iff_of_true hWritten (.inr rfl)))
      · have hInferred : plainAnnotation (some se) (some (.known inputs outputs)) =
            synthEffectAnnotation inputs outputs := if_neg hAgree
        rw [hInferred] at hLine
        have hCounts := synth_announced inputs outputs hLine
        refine table_of_counts rfl hCounts (hOther (iff_of_false ?_ ?_))
        · -- the names of the comment are of another number
          intro hWritten
          obtain ⟨hIn, hOut⟩ := written_announced hWritten
          rw [hCounts.1] at hIn
          rw [hCounts.2] at hOut
          exact hAgree ⟨(Option.some.inj hIn).symm, (Option.some.inj hOut).symm⟩
        · rintro (hNone | hSame)
          · cases hNone
          · obtain ⟨rfl, rfl⟩ := Effect.known.inj hSame
            exact hAgree ⟨rfl, rfl⟩

/-- Head locals are the inputs; the outputs are the declared ones first. -/
theorem head_counts (hSynth : r.bodyEffects.lookup (lower d.name) = some synth)
    (hHead : d.locals ≠ []) :
    Line.inputCount (emitDefinition d r) = some d.locals.length ∧
      Line.outputCount (emitDefinition d r) = (declaredFirst d.effect synth).map Prod.snd := by
  have hLine : Line.announced (emitDefinition d r) =
      (d.locals.map fun l => bindingName l.name, localsOutputs d.effect (some synth)) := by
    unfold emitDefinition
    dsimp only
    rw [if_pos (by simpa using hHead), hSynth]
    rfl
  constructor
  · have hNames : ∀ name, some name ∈ d.locals.map (fun l => bindingName l.name) →
        '.' ∉ name.toList := by
      intro name hName
      obtain ⟨l, -, hl⟩ := List.mem_map.mp hName
      exact bindingName_no_dot hl
    rw [counted_inputs (by rw [hLine]) hNames, List.length_map]
  · cases hDeclared : d.effect with
    | some se =>
      have hOutputs : (Line.announced (emitDefinition d r)).2 = se.outputs.map sanitize := by
        rw [hLine, hDeclared]
        rfl
      rw [counted_outputs hOutputs (declared_outputs_no_dot sanitize sanitize_no_dot se.outputs),
        List.length_map]
      rfl
    | none =>
      cases synth with
      | known inputs outputs =>
        have hOutputs : (Line.announced (emitDefinition d r)).2 = indexed "r" outputs := by
          rw [hLine, hDeclared]
          rfl
        rw [counted_outputs hOutputs (indexed_no_dot "r" (by decide) outputs)]
        simp [indexed, declaredFirst]
      | unknown =>
        rw [Line.outputCount, hLine, hDeclared]
        rfl

/-- Locals in the body only: the inputs and the outputs are the declared ones first. -/
theorem mid_counts (hSynth : r.bodyEffects.lookup (lower d.name) = some synth)
    (hHead : d.locals = []) (hMid : bodyUsesLocals d.body = true) :
    Line.inputCount (emitDefinition d r) = (declaredFirst d.effect synth).map Prod.fst ∧
      Line.outputCount (emitDefinition d r) = (declaredFirst d.effect synth).map Prod.snd := by
  have hLine : ∀ ann, midLocalsAnnotation d.effect (some synth) = some ann →
      Line.announced (emitDefinition d r) = (ann.inputs.map some, ann.outputs) := by
    intro ann hAnn
    unfold emitDefinition
    dsimp only
    rw [hHead, if_neg (by simp), hMid, if_pos rfl, hSynth, hAnn]
    rfl
  cases hDeclared : d.effect with
  | some se =>
    have hNames := hLine _ (by rw [hDeclared]; rfl)
    have hCounts := counted hNames
      (by
        rw [List.map_map]
        exact declared_inputs_no_dot sanitizeBound sanitizeBound_no_dot se.inputs)
      (declared_outputs_no_dot sanitizeBound sanitizeBound_no_dot se.outputs)
    simpa [declaredFirst] using hCounts
  | none =>
    cases synth with
    | known inputs outputs =>
      have hNames := hLine ⟨indexed "_mi" inputs, indexed "r" outputs⟩ (by rw [hDeclared]; rfl)
      have hCounts := counted hNames
        (by
          intro name hName
          obtain ⟨n, hn, hSome⟩ := List.mem_map.mp hName
          obtain rfl := Option.some.inj hSome
          exact indexed_no_dot "_mi" (by decide) inputs n hn)
        (indexed_no_dot "r" (by decide) outputs)
      simpa [declaredFirst, indexed] using hCounts
    | unknown =>
      apply rowVars_announced
      unfold emitDefinition
      dsimp only
      rw [hHead, if_neg (by simp), hMid, if_pos rfl, hSynth, hDeclared]
      rfl

theorem annotated (hSynth : r.bodyEffects.lookup (lower d.name) = some synth) :
    Annotated d synth (emitDefinition d r) where
  plain := plain_table hSynth
  headInputs hHead := (head_counts hSynth hHead).1
  headOutputs hHead := (head_counts hSynth hHead).2
  midInputs hHead hMid := (mid_counts hSynth hHead hMid).1
  midOutputs hHead hMid := (mid_counts hSynth hHead hMid).2

end Forms

/-! The compile. -/

section
variable {host : Host} {fs : FileSystem} {source : String} {ctx : CompileContext} {synth : Nat}
variable {m : Sema} (h : (analyse host fs source ctx synth).result = .ok m)

/-- What the inference pass knows of words behind the definitions `before`. -/
def knownBehind (m : Sema) (ctx : CompileContext) (before : List Definition) : EffectEnv :=
  ⟨(inferAll m.wordTargets (⟨seedEffects m.program.items ctx.userEffects, []⟩, []) before).1.userEffects,
    m.wordTargets⟩

include h in
/-- The effect that a form is written by is the one inferred of its own body. -/
theorem bodyEffect_own {before behind : List Definition} {d : Definition}
    (hd : definitions m.program.items = before ++ d :: behind) :
    m.bodyEffects.lookup (lower d.name) = some (inferBlock (knownBehind m ctx before) d.body) := by
  have hSeeds : (seedNames m.program.items).Nodup := (seedNames_sublist _ _).nodup (names_nodup h)
  have hNames := (definitionNames_sublist m.program.items).nodup hSeeds
  rw [hd, List.map_append, List.map_cons] at hNames
  have hApart : ∀ e ∈ behind, lower e.name ≠ lower d.name := by
    intro e he hEq
    have hTail := (List.nodup_cons.mp (List.nodup_append.mp hNames).2.1).1
    exact hTail (hEq ▸ List.mem_map_of_mem he)
  rw [bodyEffects_pass h, hd, inferAll, List.foldl_append, List.foldl_cons]
  refine (inferAll_otherBody m.wordTargets _ hApart).trans ?_
  rw [inferDefinition_bodyEffects]
  exact Dict.lookup_insert_self _ _ _

include h in
/-- Every colon definition of an accepted compile is written with the counts of its form, by the effect
that is inferred of its own body. -/
theorem compile_annotated {before behind : List Definition} {d : Definition}
    (hd : definitions m.program.items = before ++ d :: behind) (helper : Nat) :
    emitDefinition d m ∈ (emit m true helper).1 ∧
      Annotated d (inferBlock (knownBehind m ctx before) d.body) (emitDefinition d m) := by
  constructor
  · have hItem : .definition d ∈ m.program.items := by
      apply mem_definitions.mp
      rw [hd]
      exact List.mem_append_right _ List.mem_cons_self
    have hLine : emitDefinition d m ∈ m.program.items.flatMap (Item.colonWord m) :=
      List.mem_flatMap.mpr ⟨_, hItem, List.mem_singleton_self _⟩
    unfold emit
    simp only [List.mem_append]
    exact .inl (.inl (.inr hLine))
  · exact annotated (bodyEffect_own h hd)

end

theorem compile_annotated_square :
    ∃ m d, (analyse noLet noFiles ": square ( n -- n^2 ) dup * ;" .new 0).result = .ok m ∧
      definitions m.program.items = [d] ∧ emitDefinition d m ∈ (emit m true 0).1 ∧
      Annotated d (inferBlock (knownBehind m .new []) d.body) (emitDefinition d m) := by
  have hOk : (analyse noLet noFiles ": square ( n -- n^2 ) dup * ;" .new 0).result.toOption.map
      (fun m => (definitions m.program.items).length) = some 1 := by
    decide +kernel
  cases h : (analyse noLet noFiles ": square ( n -- n^2 ) dup * ;" .new 0).result with
  | error e =>
    rw [h] at hOk
    cases hOk
  | ok m =>
    rw [h] at hOk
    obtain ⟨d, hd⟩ := List.length_eq_one_iff.mp (Option.some.inj hOk)
    have hFirst : definitions m.program.items = [] ++ d :: [] := hd
    exact ⟨m, d, rfl, hd, compile_annotated h hFirst 0⟩

/-- A definition with head locals announces the two outputs of its comment, not the one it has. -/
theorem compile_not_table :
    ¬ ∀ (source : String) (m : Sema), (analyse noLet noFiles source .new 0).result = .ok m →
      ∀ d ∈ definitions m.program.items, ∀ synth, m.bodyEffects.lookup (lower d.name) = some synth →
        FollowsTable d synth (emitDefinition d m) := by
  intro hAll
  let source := ": f ( n -- a b ) {: n :} n ;"
  have hOne : (analyse noLet noFiles source .new 0).result.toOption.map (fun m =>
      (definitions m.program.items).map fun d =>
        (m.bodyEffects.lookup (lower d.name), Line.outputCount (emitDefinition d m))) =
      some [(some (.known 0 1), some 2)] := by
    decide +kernel
  cases h : (analyse noLet noFiles source .new 0).result with
  | error e =>
    rw [h] at hOne
    cases hOne
  | ok m =>
    rw [h] at hOne
    obtain ⟨d, hDefs, hd⟩ := List.map_eq_singleton_iff.mp (Option.some.inj hOne)
    obtain ⟨hSynth, hCount⟩ := Prod.mk.inj hd
    have hTable := hAll source m h d (by rw [hDefs]; exact List.mem_singleton_self _) _ hSynth
    have hOutputs := hTable.outputs
    rw [hCount] at hOutputs
    cases hOutputs

end FactorForth.Correctness
