import FactorForth.Compiler.Driver
import FactorForth.Library.Outcome

/-! A session: the compiles that succeed, one after the other, and the source they emit together. -/

namespace FactorForth.Correctness
open FactorForth.Library FactorForth.Compiler

/-! A host without the LET sub-language, and a platform without files. -/

def noLet : Host := ⟨fun _ => .error "no LET here", FloatLit.raw⟩

def noFiles : FileSystem := ⟨[], some, fun _ path => path, fun _ => none, fun _ => ""⟩

/-- The words a form defines. -/
def Line.defines : Line → List String
  | .symbol s => [s]
  | .constant name _ => [name]
  | .colon name _ _ _ => [name]
  | .localsColon name _ _ _ => [name]
  | .tuple name _ slots => name :: (name ++ "?") :: slots.flatMap fun s => [s ++ ">>", ">>" ++ s]
  | .generic name _ => [name]
  | _ => []

/-- A compile that reached emission: its semantic model, and the helper counter before it. -/
structure Eval where
  sema : Sema
  helper : Nat

namespace Eval

def items (e : Eval) : List Item := e.sema.program.items

def aux (e : Eval) : List String := auxGenerics e.items

def ir (e : Eval) : Ir := (emit e.sema true e.helper).1

def methods (e : Eval) : List MethodDef :=
  e.items.filterMap fun
    | .method m => some m
    | _ => none

end Eval

/-- The items of one kind, by what they are made of. -/
theorem mem_picked {α : Type} {pick : Item → Option α} {make : α → Item}
    (hPick : ∀ item a, pick item = some a ↔ item = make a) {items : List Item} {a : α} :
    a ∈ items.filterMap pick ↔ make a ∈ items := by
  rw [List.mem_filterMap]
  constructor
  · rintro ⟨item, hItem, hSome⟩
    obtain rfl := (hPick item a).1 hSome
    exact hItem
  · intro hItem
    exact ⟨make a, hItem, (hPick _ a).2 rfl⟩

theorem mem_definitions {items : List Item} {d : Definition} :
    d ∈ definitions items ↔ .definition d ∈ items :=
  mem_picked fun item a => by cases item <;> simp

theorem mem_methods {e : Eval} {m : MethodDef} : m ∈ e.methods ↔ .method m ∈ e.items :=
  mem_picked fun item a => by cases item <;> simp

def emitted (es : List Eval) : Ir := es.flatMap Eval.ir

theorem emitted_cons (e : Eval) (es : List Eval) : emitted (e :: es) = e.ir ++ emitted es :=
  List.flatMap_cons

theorem emitted_append (es es' : List Eval) : emitted (es ++ es') = emitted es ++ emitted es' :=
  List.flatMap_append

section
variable (host : Host) (fs : FileSystem)

theorem forSession_wide (s : Sema) (docs : Dict String WordDoc) : Wide (s.forSession docs) := by
  intro name h
  have hAll : ∀ d : Dict String EscapeState,
      (d.map fun p => (p.1, interactiveWide)).lookup name ≠ some .narrow := by
    intro d
    induction d with
    | nil => simp
    | cons p d ih =>
      rw [List.map_cons, List.lookup_cons]
      split
      · simp [interactiveWide]
      · exact ih
  exact hAll s.escape h

/-- A build that succeeds: the prepared program resolves, and the model is read off the result. -/
theorem build_ok {source : Program} {prior : PriorState} {synth synth' : Nat} {sema : Sema}
    (h : buildWithPriorState source prior synth = (.ok sema, synth')) :
    let prog := (prepare source prior.templates synth).1.1
    let slots := computeClassSlots prog prior.classes
    ∃ words targets, register (prog.items.flatMap (Item.introduced slots)) [] = .ok words ∧
      resolveBodies (Dict.merge prior.userWords words)
        (Dict.merge prior.values (localValueNames prog.items))
        (prog.items.flatMap Item.resolvedBodies) [] = .ok targets ∧
      sema = semaOfResolved ⟨prog, targets, words⟩ slots prior.effects := by
  unfold buildWithPriorState at h
  dsimp only at h ⊢
  split at h
  · cases h
  · split at h
    · cases h
    · rename_i resolved hResolve
      obtain ⟨words, hRegister, hRest⟩ := ok_of_bind hResolve
      obtain ⟨targets, hBodies, hDone⟩ := ok_of_bind hRest
      obtain rfl := Except.ok.inj hDone
      obtain ⟨hSema, _⟩ := Prod.mk.inj h
      exact ⟨words, targets, hRegister, hBodies, (Except.ok.inj hSema).symm⟩

/-- A compile that reaches emission: its files are merged and the merged items are built. -/
theorem analyse_ok {source : String} {ctx : CompileContext} {synth : Nat} {sema : Sema}
    (h : (analyse host fs source ctx synth).result = .ok sema) :
    ∃ own items docs built synth', compileItems host source = .ok own ∧
      (expandNeeds host fs none own ctx.included (buildDocs host own source)).result =
        .ok (items, docs) ∧
      buildWithPriorState ⟨items⟩ ctx.prior synth = (.ok built, synth') ∧
      sema = built.forSession (Dict.merge ctx.docs docs) := by
  unfold analyse at h
  split at h
  · cases h
  · rename_i own hOwn
    dsimp only at h
    split at h
    · cases h
    · rename_i items docs hItems
      split at h
      · cases h
      · rename_i built synth' hBuild
        exact ⟨own, items, docs, built, synth', hOwn, hItems, hBuild, (Except.ok.inj h).symm⟩

theorem analyse_wide {source : String} {ctx : CompileContext} {synth : Nat} {sema : Sema}
    (h : (analyse host fs source ctx synth).result = .ok sema) : Wide sema := by
  obtain ⟨own, items, docs, built, synth', -, -, -, rfl⟩ := analyse_ok host fs h
  exact forSession_wide _ _

def compileEval (source : String) (ctx : CompileContext) (counters : Counters) : Option Eval :=
  match (analyse host fs source ctx counters.synth).result with
  | .error _ => none
  | .ok sema => some ⟨sema, counters.helper⟩

/-- The compiles of a session. A source that fails emits nothing. -/
def evals : List String → CompileContext → Counters → List Eval
  | [], _, _ => []
  | source :: sources, ctx, counters =>
    let compiled := compileInContextWithDiagnostics host fs source ctx counters
    (compileEval host fs source ctx counters).toList ++ evals sources compiled.context compiled.counters

/-- In a session every variable is wide. -/
theorem evals_wide (sources : List String) (ctx : CompileContext) (counters : Counters) :
    ∀ e ∈ evals host fs sources ctx counters, Wide e.sema := by
  induction sources generalizing ctx counters with
  | nil => simp [evals]
  | cons source sources ih =>
    intro e he
    rcases List.mem_append.mp he with he | he
    · rw [Option.mem_toList] at he
      unfold compileEval at he
      split at he
      · cases he
      · rename_i sema hSema
        obtain rfl := Option.some.inj he
        exact analyse_wide host fs hSema
    · exact ih _ _ e he

/-- The source a compile hands out is that of its `Eval`. -/
theorem compileEval_ir (source : String) (ctx : CompileContext) (counters : Counters) :
    (compileEval host fs source ctx counters).map Eval.ir =
      (compileInContextWithDiagnostics host fs source ctx counters).result.toOption.map Prod.fst := by
  unfold compileEval compileInContextWithDiagnostics
  dsimp only
  cases (analyse host fs source ctx counters.synth).result with
  | error e => rfl
  | ok sema => rfl

end

/-! The definition of a word that is in force at the end. -/

def currentDef (ir : Ir) (w : String) : Option Line :=
  (ir.filter fun l => (Line.defines l).contains w).getLast?

theorem currentDef_append (ir ir' : Ir) (w : String) :
    currentDef (ir ++ ir') w = (currentDef ir' w).or (currentDef ir w) := by
  rw [currentDef, List.filter_append, List.getLast?_append]
  rfl

theorem currentDef_none {ir : Ir} {w : String} (h : w ∉ ir.flatMap Line.defines) :
    currentDef ir w = none := by
  have hNil : (ir.filter fun l => (Line.defines l).contains w) = [] := by
    rw [List.filter_eq_nil_iff]
    intro l hl hw
    exact h (List.mem_flatMap.mpr ⟨l, hl, by simpa using hw⟩)
  rw [currentDef, hNil]
  rfl

theorem mem_of_currentDef {ir : Ir} {w : String} {l : Line} (h : currentDef ir w = some l) :
    l ∈ ir ∧ w ∈ Line.defines l := by
  obtain ⟨hl, hw⟩ := List.mem_filter.mp (List.mem_of_getLast? h)
  exact ⟨hl, by simpa using hw⟩

end FactorForth.Correctness
