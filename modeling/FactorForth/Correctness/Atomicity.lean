import FactorForth.Correctness.Session

/-! What a failed compile leaves behind. The tables of the context are written only at the very end,
but a file is put into the include set before it is read. -/

namespace FactorForth.Correctness
open FactorForth.Compiler FactorForth.Library

variable (host : Host) (fs : FileSystem)

/-- The items of the top-level source ask for a file that this session has not included. -/
def AsksForFile (items : List Item) (included : List String) : Prop :=
  ∃ path span, Item.needs path span ∈ items ∧ fs.key path ∉ included

/-- The first file that is asked for and not yet included enters the set, whatever comes of it. -/
theorem expandNeeds_mem_after (base : Option String) (path : String) (span : Span)
    (items : List Item) (included : List String) (docs : Dict String WordDoc)
    (hk : fs.key (needsPath fs base path) ∉ included) :
    fs.key (needsPath fs base path) ∈
      (expandNeeds host fs base (.needs path span :: items) included docs).after := by
  have hc : included.contains (fs.key (needsPath fs base path)) = false := by
    simpa using hk
  rw [expandNeeds]
  simp only [expandItems, hc, Bool.false_eq_true, dite_false, expandItems_eq]
  split
  · exact List.mem_cons_self
  · split
    · exact List.mem_cons_self
    · split
      · exact (expandNeeds host fs _ _ _ _).grows List.mem_cons_self
      · refine (expandNeeds host fs base items _ _).grows ?_
        exact (expandNeeds host fs _ _ _ _).grows List.mem_cons_self

/-- Expansion leaves the set as it is exactly when nothing new is asked for. -/
theorem expandNeeds_after_eq (items : List Item) (included : List String)
    (docs : Dict String WordDoc) :
    (expandNeeds host fs none items included docs).after = included ↔
      ¬ AsksForFile fs items included := by
  induction items with
  | nil =>
    rw [expandNeeds_nil]
    simp [AsksForFile]
  | cons item items ih =>
    cases item with
    | needs path span =>
      by_cases hk : fs.key path ∈ included
      · have hincl : fs.key (needsPath fs none path) ∈ included := hk
        rw [expandNeeds_included host fs hincl, ih, not_iff_not]
        constructor
        · rintro ⟨p, sp, hm, hp⟩
          exact ⟨p, sp, List.mem_cons_of_mem _ hm, hp⟩
        · rintro ⟨p, sp, hm, hp⟩
          rcases List.mem_cons.mp hm with heq | hm
          · cases heq
            exact absurd hk hp
          · exact ⟨p, sp, hm, hp⟩
      · constructor
        · intro ha
          have hmem := expandNeeds_mem_after host fs none path span items included docs hk
          rw [ha] at hmem
          exact absurd hmem hk
        · intro hn
          exact absurd ⟨path, span, List.mem_cons_self, hk⟩ hn
    | _ =>
      rw [expandNeeds_other host fs (by nofun), ih, not_iff_not]
      simp [AsksForFile]

theorem analyse_included (source : String) (ctx : CompileContext) (synth : Nat) :
    (analyse host fs source ctx synth).included =
      match compileItems host source with
      | .error _ => ctx.included
      | .ok items =>
        (expandNeeds host fs none items ctx.included (buildDocs host items source)).after := by
  simp only [analyse]
  cases compileItems host source with
  | error e => rfl
  | ok items =>
    simp only
    split
    · rfl
    · split <;> rfl

/-- A failed compile has changed at most the include set. -/
theorem compile_error_context {source : String} {ctx : CompileContext} {counters : Counters}
    (h : (compileInContextWithDiagnostics host fs source ctx counters).result.isOk = false) :
    (compileInContextWithDiagnostics host fs source ctx counters).context =
      { ctx with included := (analyse host fs source ctx counters.synth).included } := by
  simp only [compileInContextWithDiagnostics] at h ⊢
  split at h
  · rfl
  · cases h

/-- The context is what it was, and so is every compile that follows. -/
def NoTrace (ctx after : CompileContext) : Prop :=
  after = ctx ∧ ∀ source counters,
    compileInContextWithDiagnostics host fs source after counters =
      compileInContextWithDiagnostics host fs source ctx counters

theorem noTrace_iff (ctx after : CompileContext) : NoTrace host fs ctx after ↔ after = ctx := by
  constructor
  · exact And.left
  · intro h
    exact ⟨h, fun _ _ => by rw [h]⟩

/-- A failed compile leaves no trace exactly when its source does not parse or asks for no file that is
not yet included. -/
theorem compile_atomic (source : String) (ctx : CompileContext) (counters : Counters)
    (h : (compileInContextWithDiagnostics host fs source ctx counters).result.isOk = false) :
    NoTrace host fs ctx (compileInContextWithDiagnostics host fs source ctx counters).context ↔
      ∀ items, compileItems host source = .ok items → ¬ AsksForFile fs items ctx.included := by
  have hctx : (compileInContextWithDiagnostics host fs source ctx counters).context = ctx ↔
      (analyse host fs source ctx counters.synth).included = ctx.included := by
    rw [compile_error_context host fs h]
    constructor
    · exact congrArg CompileContext.included
    · intro hinc
      rw [hinc]
  rw [noTrace_iff, hctx, analyse_included]
  cases hi : compileItems host source with
  | error e => simp
  | ok items =>
    have key := expandNeeds_after_eq host fs items ctx.included (buildDocs host items source)
    constructor
    · intro hc items' hitems
      cases hitems
      exact key.mp hc
    · intro hn
      exact key.mpr (hn items rfl)

/-! A library that is there, and a main text with a slip behind its NEEDS. -/

def oneLibrary : FileSystem :=
  ⟨[("lib.f", ": one 1 ;")], some, fun _ path => path, fun _ => none, fun _ => ""⟩

def compileLib (source : String) (ctx : CompileContext) : Compiled :=
  compileInContextWithDiagnostics noLet oneLibrary source ctx .start

theorem compile_atomic_unclosed :
    NoTrace noLet oneLibrary .new (compileLib "needs lib.f : f" .new).context := by
  refine (compile_atomic noLet oneLibrary "needs lib.f : f" .new .start (by decide +kernel)).mpr ?_
  intro items h
  have herr : (compileItems noLet "needs lib.f : f").isOk = false := by decide +kernel
  rw [h] at herr
  cases herr

/-- The corrected text fails behind the failed one, and compiles where that was never tried. -/
theorem compile_not_atomic :
    (compileLib "needs lib.f onee ." .new).result.isOk = false ∧
    (compileLib "needs lib.f one ." .new).result.isOk = true ∧
    (compileLib "needs lib.f one ." (compileLib "needs lib.f onee ." .new).context).result.isOk =
      false ∧
    ¬ NoTrace noLet oneLibrary .new (compileLib "needs lib.f onee ." .new).context := by
  have hincluded : (compileLib "needs lib.f onee ." .new).context.included = ["lib.f"] := by
    decide +kernel
  refine ⟨by decide +kernel, by decide +kernel, by decide +kernel, fun h => ?_⟩
  rw [h.1] at hincluded
  cases hincluded

end FactorForth.Correctness
