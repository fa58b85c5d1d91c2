import FactorForth.Correctness.DefinitionEffects
import FactorForth.Correctness.RecordedEffects

/-! Recorded effects and runs: what the compiles of a session record for colon definitions, against what the
definitions do when they are loaded together and call one another. -/

namespace FactorForth.Correctness
open FactorForth.Library FactorForth.Compiler FactorForth.Semantics
variable {Obj World : Type}

/-! The tables of a session. -/

/-- `table'` has the entries of `table`. -/
def Extended (table table' : Dict String Effect) : Prop :=
  ∀ k e, table.lookup k = some e → table'.lookup k = some e

theorem Extended.refl (table : Dict String Effect) : Extended table table := fun _ _ h => h

theorem Extended.trans {a b c : Dict String Effect} (hab : Extended a b) (hbc : Extended b c) : Extended a c :=
  fun k e h => hbc k e (hab k e h)

theorem Extended.below {a b : Dict String Effect} (h : Extended a b) : Below a b :=
  fun k _ _ hk => h k _ hk

section Session
variable (host : Host) (fs : FileSystem)

/-- The context behind the last source. -/
def lastContext : List String → CompileContext → Counters → CompileContext
  | [], ctx, _ => ctx
  | source :: sources, ctx, counters =>
    let compiled := compileInContextWithDiagnostics host fs source ctx counters
    lastContext sources compiled.context compiled.counters

/-- No source changes the effect that is recorded for a name. -/
def KeepsRecords : List String → CompileContext → Counters → Prop
  | [], _, _ => True
  | source :: sources, ctx, counters =>
    let compiled := compileInContextWithDiagnostics host fs source ctx counters
    Extended ctx.userEffects compiled.context.userEffects ∧
      KeepsRecords sources compiled.context compiled.counters

theorem KeepsRecords.keeps {sources : List String} {ctx : CompileContext} {counters : Counters}
    (h : KeepsRecords host fs sources ctx counters) :
    Extended ctx.userEffects (lastContext host fs sources ctx counters).userEffects := by
  induction sources generalizing ctx counters with
  | nil => exact Extended.refl _
  | cons source sources ih => exact h.1.trans (ih h.2)

/-- The context a compile of the session starts from, and what stays of what it records. -/
theorem evals_recorded {sources : List String} {ctx : CompileContext} {counters : Counters}
    (h : KeepsRecords host fs sources ctx counters) : ∀ e ∈ evals host fs sources ctx counters,
    ∃ source ctx' synth, (analyse host fs source ctx' synth).result = .ok e.sema ∧
      Extended ctx'.userEffects (ctx'.update e.sema).userEffects ∧
      Extended (ctx'.update e.sema).userEffects
        (lastContext host fs sources ctx counters).userEffects := by
  induction sources generalizing ctx counters with
  | nil => exact fun e he => nomatch he
  | cons source sources ih =>
    intro e he
    rcases List.mem_append.mp he with he | he
    · rw [Option.mem_toList] at he
      unfold compileEval at he
      split at he
      · cases he
      · next sema hSema =>
        obtain rfl := Option.some.inj he
        have hContext : (compileInContextWithDiagnostics host fs source ctx counters).context.userEffects =
            (ctx.update sema).userEffects := by
          unfold compileInContextWithDiagnostics
          dsimp only
          rw [hSema]
          rfl
        refine ⟨source, ctx, counters.synth, hSema, ?_, ?_⟩
        · rw [← hContext]
          exact h.1
        · rw [← hContext]
          exact KeepsRecords.keeps host fs h.2
    · exact ih h.2 e he

end Session

/-! Words that call one another. -/

section Linked
variable (V : Vm Obj World) (defs : String → Option Line) (table : Dict String Effect)

/-- A user word goes by its own Factor name, and any other word does what the table of Factor's own words
says. -/
def WordsKnown (r : Sema) (os : List (String × Span)) : Prop :=
  ∀ o ∈ os, match r.wordTargets.lookup o.2 with
    | none => False
    | some (.local_ _) => True
    | some (.userDefined n) => n = factorUserName (lower o.1)
    | some t => HasEffect (EffectEnv.builtin (lower o.1)) (V.reference t)

/-- Every count of the table is what the word of that name does. -/
def TableTrue : Prop :=
  ∀ lc i o, table.lookup lc = some (.known i o) →
    HasEffect (.known i o) (onMachine (V.word (.userDefined (factorUserName lc))))

variable {V defs table} {r : Sema} {os : List (String × Span)}

theorem WordsKnown.targeted (h : WordsKnown V r os) : Targeted r os := by
  intro o ho
  have hWord := h o ho
  cases hTarget : r.wordTargets.lookup o.2 with
  | none =>
    rw [hTarget] at hWord
    exact hWord.elim
  | some t => rfl

theorem WordsKnown.trueWords (h : WordsKnown V r os) {k : Nat} (hTable : TableTrue (V.link defs k) table) :
    TrueWords (V.link defs k) r ⟨table, r.wordTargets⟩ os := by
  intro o ho
  have hWord := h o ho
  unfold EffectEnv.wordEffect execWord
  dsimp only
  cases hTarget : r.wordTargets.lookup o.2 with
  | none =>
    rw [hTarget] at hWord
    exact hWord.elim
  | some t =>
    rw [hTarget] at hWord
    cases t with
    | local_ n => exact HasEffect.lookupLocal n
    | userDefined n =>
      obtain rfl : n = factorUserName (lower o.1) := hWord
      dsimp only
      cases hEntry : table.lookup (lower o.1) with
      | none => exact trivial
      | some e =>
        cases e with
        | unknown => exact trivial
        | known i o' => exact hTable _ i o' hEntry
    | _ =>
      dsimp only
      rw [link_reference V defs k rfl]
      exact hWord

theorem link_runtime (hrt : RuntimeEffects V) (k : Nat) : RuntimeEffects (V.link defs k) where
  printString := by
    rw [link_reference V defs k rfl]
    exact hrt.printString
  sQuote := by
    rw [link_reference V defs k rfl]
    exact hrt.sQuote
  setGlobal := by
    rw [link_reference V defs k rfl]
    exact hrt.setGlobal
  letForm form := by
    rw [link_letForm]
    exact hrt.letForm form

/-- A definition is written in one of the colon forms. -/
theorem emitDefinition_code (V : Vm Obj World) (d : Definition) (r : Sema) :
    (lineCode V (emitDefinition d r)).isSome = true := by
  unfold emitDefinition
  dsimp only
  split
  · rfl
  · split
    · split <;> rfl
    · rfl

/-- What inference makes of a definition, its head locals included. -/
def definitionEffect (table : Dict String Effect) (r : Sema) (d : Definition) : Effect :=
  (Effect.known d.locals.length 0).andThen (inferBlock ⟨table, r.wordTargets⟩ d.body)

/-- Over words that do what the table says, a definition does what inference makes of it. -/
theorem linked_definition (hrt : RuntimeEffects V) {k : Nat}
    (hTable : TableTrue (V.link defs k) table) (hw : Wide r) {d : Definition}
    (hWords : WordsKnown V r (occurrences d.body)) {i o : Nat}
    (hInfer : definitionEffect table r d = .known i o)
    (hLoops : ∀ s, ¬ execSeq (V.link defs k) r (effectRules ⟨table, r.wordTargets⟩) [] d.body s .fault)
    (hComment : ∀ se, d.effect = some se → se.counts = .known i o)
    (hPlain : d.effect = none → r.bodyEffects.lookup (lower d.name) = some (.known i o))
    {c : Command Obj World PUnit} (hCode : lineCode (V.link defs k) (emitDefinition d r) = some c) :
    HasEffect (.known i o) c := by
  unfold definitionEffect at hInfer
  cases hBlock : inferBlock ⟨table, r.wordTargets⟩ d.body with
  | unknown =>
    rw [hBlock] at hInfer
    cases hInfer
  | known bi bo =>
    rw [hBlock] at hInfer
    rw [← hInfer]
    have hTrue := trueSeq_of_words hw d.body (hWords.trueWords hTable)
    have hSound := inferBlock_sound (link_runtime hrt k) d.body hTrue hBlock
    have hBody : HasEffect (.known bi bo) (run (V.link defs k) (emitExprs r d.body)) :=
      ⟨fun s _ t top rest hRun hs hlen => (hSound s (hLoops s)).1 t top rest hRun hs hlen,
        fun s t => (hSound s (hLoops s)).2 t⟩
    refine definition_effect hw hWords.targeted hBody (fun hNone _ => ?_) hCode
    -- without head locals the body is all there is
    rw [hNone, List.length_nil, Effect.zero_andThen] at hInfer
    obtain ⟨rfl, rfl⟩ := Effect.known.inj hInfer
    cases hEffect : d.effect with
    | none =>
      rw [hPlain hEffect]
      refine ⟨_, rfl, ?_⟩
      simp [indexed]
    | some se =>
      refine ⟨_, rfl, ?_⟩
      obtain ⟨hInputs, -⟩ := Effect.known.inj (hComment se hEffect)
      simpa using hInputs

end Linked

section Records
variable (V : Vm Obj World) (es : List Eval) (table : Dict String Effect)

/-- The words of the session, each by its definition in force. -/
def loaded (k : Nat) : Vm Obj World := V.link (currentDef (emitted es)) k

/-- The code of the definition has the effect, however deep its calls may nest. -/
def DoesWhatRecorded (e : Eval) (d : Definition) (i o : Nat) : Prop :=
  ∀ k c, lineCode (loaded V es k) (emitDefinition d e.sema) = some c → HasEffect (.known i o) c

/-- Every count that a compile records for a colon definition is what the definition does. -/
def RecordsTrue : Prop :=
  ∀ e ∈ es, ∀ d ∈ definitions e.items, ∀ i o,
    e.sema.userEffects.lookup (lower d.name) = some (.known i o) → DoesWhatRecorded V es e d i o

/-- The record is what inference makes of the whole definition, which is so where it has neither comment
nor head locals; and no run of the body passes a BEGIN-UNTIL with a surplus more than once, or enters a
DO-+LOOP whose body leaves no step. -/
structure Answered (e : Eval) (d : Definition) (i o : Nat) : Prop where
  effect : d.effect = none ∧ d.locals = [] ∨ definitionEffect table e.sema d = .known i o
  loops : ∀ k s, ¬ execSeq (loaded V es k) e.sema (effectRules ⟨table, e.sema.wordTargets⟩) [] d.body s
    .fault

/-- Every record that inference does not answer for is right: the comments of definitions that it makes
something else of, and the words that are no colon definitions. -/
structure Truthful : Prop where
  words : ∀ e ∈ es, ∀ d ∈ definitions e.items, WordsKnown V e.sema (occurrences d.body)
  colons : ∀ e ∈ es, ∀ d ∈ definitions e.items, ∀ i o,
    table.lookup (lower d.name) = some (.known i o) →
      Answered V es table e d i o ∨ DoesWhatRecorded V es e d i o
  others : ∀ lc i o, table.lookup lc = some (.known i o) →
    (∀ e ∈ es, ∀ d ∈ definitions e.items, lower d.name = lc →
      currentDef (emitted es) (factorUserName lc) ≠ some (emitDefinition d e.sema)) →
    ∀ k, HasEffect (.known i o) (onMachine ((loaded V es k).word (.userDefined (factorUserName lc))))

/-- What the table has of a definition is what its compile recorded: the counts of the comment, or what
was inferred then, and is inferred still. -/
structure Recorded (e : Eval) (d : Definition) (i o : Nat) : Prop where
  comment : ∀ se, d.effect = some se → se.counts = .known i o
  body : d.effect = none → e.sema.bodyEffects.lookup (lower d.name) = some (.known i o)
  inferred : d.effect = none → inferBlock ⟨table, e.sema.wordTargets⟩ d.body = .known i o

variable {V es table}

theorem Truthful.definition (h : Truthful V es table) (hrt : RuntimeEffects V)
    (hWide : ∀ e ∈ es, Wide e.sema) {k : Nat} (hTable : TableTrue (loaded V es k) table) {e : Eval}
    (he : e ∈ es) {d : Definition} (hd : d ∈ definitions e.items) {i o : Nat}
    (hEntry : table.lookup (lower d.name) = some (.known i o)) (hRecorded : Recorded table e d i o)
    {c : Command Obj World PUnit}
    (hCode : lineCode (loaded V es k) (emitDefinition d e.sema) = some c) :
    HasEffect (.known i o) c := by
  obtain hAnswered | hDoes := h.colons e he d hd i o hEntry
  · have hInfer : definitionEffect table e.sema d = .known i o := by
      obtain ⟨hNone, hLocals⟩ | hInfer := hAnswered.effect
      · rw [definitionEffect, hLocals, List.length_nil, Effect.zero_andThen]
        exact hRecorded.inferred hNone
      · exact hInfer
    exact linked_definition hrt hTable (hWide e he) (h.words e he d hd) hInfer (hAnswered.loops k)
      hRecorded.comment hRecorded.body hCode
  · exact hDoes k c hCode

/-- A counted name has a colon definition in force, or its word is one of the others. -/
theorem Truthful.in_force (h : Truthful V es table) {lc : String} {i o : Nat}
    (hEntry : table.lookup lc = some (.known i o)) :
    (∃ e ∈ es, ∃ d ∈ definitions e.items, lower d.name = lc ∧
      currentDef (emitted es) (factorUserName lc) = some (emitDefinition d e.sema)) ∨
    ∀ k, HasEffect (.known i o)
      (onMachine ((loaded V es k).word (.userDefined (factorUserName lc)))) := by
  by_cases hForce : ∃ e ∈ es, ∃ d ∈ definitions e.items, lower d.name = lc ∧
      currentDef (emitted es) (factorUserName lc) = some (emitDefinition d e.sema)
  · exact .inl hForce
  · refine .inr (h.others lc i o hEntry fun e he d hd hName hLine => ?_)
    exact hForce ⟨e, he, d, hd, hName, hLine⟩

/-- By induction on the depth of the calls: a word that calls others less deep does what is recorded of it,
since they do. -/
theorem Truthful.table_true (h : Truthful V es table) (hrt : RuntimeEffects V)
    (hWide : ∀ e ∈ es, Wide e.sema)
    (hRecorded : ∀ e ∈ es, ∀ d ∈ definitions e.items, ∀ i o,
      table.lookup (lower d.name) = some (.known i o) → Recorded table e d i o) (k : Nat) :
    TableTrue (loaded V es k) table := by
  induction k with
  | zero =>
    intro lc i o hEntry
    obtain ⟨e, he, d, hd, rfl, hLine⟩ | hOther := h.in_force hEntry
    · rw [loaded, link_word_zero hLine (emitDefinition_code V d e.sema)]
      refine HasEffect.never _ ?_ (Cmd.NoRet.ofRel _)
      rintro s a t ⟨u, ⟨hNever, -⟩, -⟩
      exact hNever
    · exact hOther 0
  | succ k ih =>
    intro lc i o hEntry
    obtain ⟨e, he, d, hd, rfl, hLine⟩ | hOther := h.in_force hEntry
    · obtain ⟨c, hCode⟩ := Option.isSome_iff_exists.1
        (emitDefinition_code (loaded V es k) d e.sema)
      rw [loaded, link_word_succ hLine hCode]
      have hDoes := h.definition hrt hWide ih he hd hEntry (hRecorded e he d hd i o hEntry) hCode
      exact HasEffect.called hDoes
    · exact hOther (k + 1)

end Records

section Whole
variable {V : Vm Obj World} (host : Host) (fs : FileSystem)

theorem session_recorded {sources : List String} {ctx : CompileContext} {counters : Counters}
    (h : KeepsRecords host fs sources ctx counters) {e : Eval}
    (he : e ∈ evals host fs sources ctx counters) {d : Definition} (hd : d ∈ definitions e.items) :
    (∀ i o, e.sema.userEffects.lookup (lower d.name) = some (.known i o) →
      (lastContext host fs sources ctx counters).userEffects.lookup (lower d.name) =
        some (.known i o)) ∧
    ∀ i o, (lastContext host fs sources ctx counters).userEffects.lookup (lower d.name) =
        some (.known i o) →
      Recorded (lastContext host fs sources ctx counters).userEffects e d i o := by
  obtain ⟨source, ctx', synth, hSema, hOwn, hRest⟩ := evals_recorded host fs h e he
  obtain ⟨hComment, hPlain⟩ := definition_recorded hSema hOwn.below hd
  have hStays : ∀ x, e.sema.userEffects.lookup (lower d.name) = some x →
      (lastContext host fs sources ctx counters).userEffects.lookup (lower d.name) = some x := by
    intro x hx
    apply hRest
    have hMerge : (ctx'.update e.sema).userEffects.lookup (lower d.name) =
        (e.sema.userEffects.lookup (lower d.name)).or (ctx'.userEffects.lookup (lower d.name)) :=
      Dict.lookup_merge _ _ _
    rw [hMerge, hx]
    rfl
  refine ⟨fun i o => hStays _, fun i o hEntry => ⟨?_, ?_, ?_⟩⟩
  · intro se hEffect
    have hThen := hStays _ (hComment se hEffect)
    exact Option.some.inj (hThen.symm.trans hEntry)
  · intro hNone
    obtain ⟨env, -, hUser, hBody⟩ := hPlain hNone
    have hThen := hStays _ hUser
    rw [hBody, ← Option.some.inj (hThen.symm.trans hEntry)]
  · intro hNone
    obtain ⟨env, hBelow, hUser, -⟩ := hPlain hNone
    have hThen := hStays _ hUser
    have hInfer := Option.some.inj (hThen.symm.trans hEntry)
    have hRefines := inferSeq_refines (hBelow.trans hRest.below) e.sema.wordTargets d.body
    unfold inferBlock at hInfer
    rw [hInfer] at hRefines
    exact hRefines.known

end Whole

section Examples

/-- A body of integers and references. -/
def straight : List Expr → Bool
  | [] => true
  | .lit (.int _ _) :: es => straight es
  | .wordRef _ _ :: es => straight es
  | _ => false

theorem reference_no_fault (V : Vm Obj World) (t : Target) (s : State Obj World) :
    ¬ V.reference t s .fault := by
  unfold Vm.reference
  split
  · rintro ⟨p, -, h⟩
    cases h
  · split
    · exact fun h => nomatch h
    · rintro ⟨u, -, h⟩
      cases h

theorem straight_no_fault {V : Vm Obj World} {r : Sema} (hw : Wide r) (R : Rules Obj World)
    (rest : List Expr) {body : List Expr} (h : straight body = true) (s : State Obj World) :
    ¬ execSeq V r R rest body s .fault := by
  induction body generalizing s with
  | nil =>
    rw [execSeq]
    exact fun hFault => nomatch hFault
  | cons e es ih =>
    have hBoth : straight es = true ∧ ∀ rest' u, ¬ execExpr V r R rest' e u .fault := by
      cases e with
      | wordRef name span =>
        refine ⟨h, fun rest' u => ?_⟩
        rw [execExpr]
        unfold execWord
        cases r.wordTargets.lookup span with
        | some t => exact reference_no_fault V t u
        | none =>
          rintro ⟨w, -, hOut⟩
          cases hOut
      | lit l =>
        cases l with
        | int value span =>
          refine ⟨h, fun rest' u => ?_⟩
          rw [execExpr]
          rintro ⟨p, -, hOut⟩
          cases hOut
        | _ => cases h
      | _ => cases h
    rw [execSeq_cons hw]
    intro hFault
    obtain ⟨-, t, -, hTail⟩ | hHead := Cmd.bind_fault.1 hFault
    · exact ih hBoth.1 t hTail
    · exact hBoth.2 _ s hHead

/-- What the run below reads of a definition. -/
structure Outline where
  name : String
  plain : Bool
  straight : Bool
  words : List (String × Option Target)
deriving DecidableEq

def outline (r : Sema) : Item → Option Outline
  | .definition d =>
    some ⟨lower d.name, d.effect.isNone && d.locals.isEmpty, straight d.body,
      (occurrences d.body).map fun o => (o.1, r.wordTargets.lookup o.2)⟩
  | _ => none

theorem outline_some {r : Sema} {item : Item} {o : Outline} (h : outline r item = some o) :
    ∃ d, item = .definition d ∧ lower d.name = o.name ∧
      (d.effect.isNone && d.locals.isEmpty) = o.plain ∧ straight d.body = o.straight ∧
      ((occurrences d.body).map fun p => (p.1, r.wordTargets.lookup p.2)) = o.words := by
  cases item with
  | definition d =>
    obtain rfl := Option.some.inj h
    exact ⟨d, rfl, rfl, rfl, rfl, rfl⟩
  | _ => cases h

theorem oneTwo_outline : (evals noLet noFiles [": one 1 ; : two one ;"] .new .start).map
    (fun e => e.items.map (outline e.sema)) =
      [[some ⟨"one", true, true, []⟩,
        some ⟨"two", true, true, [("one", some (.userDefined "z-one"))]⟩]] := by
  decide +kernel

theorem oneTwo_table : (lastContext noLet noFiles [": one 1 ; : two one ;"] .new .start).userEffects =
    [("two", .known 0 1), ("one", .known 0 1)] := by
  decide +kernel

theorem emitDefinition_defines (d : Definition) (r : Sema) :
    Line.defines (emitDefinition d r) = [mangled d.name] := by
  unfold emitDefinition
  dsimp only
  split
  · rfl
  · split
    · split <;> rfl
    · rfl

/-- A compile of two definitions, and the definition in force of each. -/
theorem currentDef_two {e : Eval} {d d' : Definition}
    (hItems : e.items = [.definition d, .definition d']) (hName : mangled d.name ≠ mangled d'.name) :
    currentDef (emitted [e]) (mangled d.name) = some (emitDefinition d e.sema) ∧
      currentDef (emitted [e]) (mangled d'.name) = some (emitDefinition d' e.sema) := by
  have hProgram : e.sema.program.items = [.definition d, .definition d'] := hItems
  have hIr : emitted [e] = [.using_ (vocabsNeeded e.sema), .inScratchpad, emitDefinition d e.sema,
      emitDefinition d' e.sema, .flush] := by
    rw [emitted_cons]
    show (emit e.sema true e.helper).1 ++ [] = _
    simp [emit, hProgram, emitMethods, Item.declaration, Item.colonWord, Item.execution]
  have hUsing : Line.defines (.using_ (vocabsNeeded e.sema)) = [] := rfl
  have hScratchpad : Line.defines .inScratchpad = [] := rfl
  have hFlush : Line.defines .flush = [] := rfl
  unfold currentDef
  rw [hIr]
  constructor
  · simp [hUsing, hScratchpad, hFlush, emitDefinition_defines, hName]
  · simp [hUsing, hScratchpad, hFlush, emitDefinition_defines, hName.symm]

/-- A body that is a single number. -/
def isOne : Line → Bool
  | .colon _ _ [.int 1] _ => true
  | _ => false

theorem isOne_colon {l : Line} (h : isOne l = true) :
    ∃ name effect inline, l = .colon name effect [.int 1] inline := by
  unfold isOne at h
  split at h
  · exact ⟨_, _, _, rfl⟩
  · cases h

end Examples

end FactorForth.Correctness
