import FactorForth.Correctness.Session
import FactorForth.Correctness.Sentences

/-! Load-time code: the top-level expressions of a program, where the emitted source executes them, and
the runs that end up in the body of a word instead. -/

namespace FactorForth.Correctness
open FactorForth.Library FactorForth.Compiler

/-- What is to happen when a program is loaded: an expression is executed, or the value behind an
initial code is stored. -/
inductive Load where
  | run (e : Expr)
  | store (name : String)

def runs (exprs : List Expr) : List Load := exprs.map .run

/-- The load-time code that an item executes. -/
def executed : Item → List Load
  | .topLevel exprs _ => runs exprs
  | .value v => runs v.initial ++ [.store v.name]
  | _ => []

/-- The run that a computed constant took from the top level: it is the body of a word. -/
def repeated : Item → List Load
  | .constant ⟨_, _, .computed exprs, _, _⟩ => runs exprs
  | _ => []

/-- The load-time code of an item as the source has it. -/
def loads (item : Item) : List Load := executed item ++ repeated item

/-- What a run of the top level leaves for execution: each instance of a template takes its count, the
template and the new name. -/
inductive Leaves (templates : Dict String TemplateDef) : List Expr → List Expr → Prop
  | all (run : List Expr) : Leaves templates run run
  | instance_ {count : Expr} {name newname : String} {span newSpan : Span} {rest left : List Expr}
      (front : List Expr) (hTemplate : Dict.contains templates (lower name) = true)
      (hCount : (countLit (some count)).isSome = true) (hRest : Leaves templates rest left) :
      Leaves templates (front ++ count :: .wordRef name span :: .wordRef newname newSpan :: rest)
        (front ++ left)

/-- An expression before and after the rewriting of `?DUP IF`. -/
inductive Desugars : Expr → Expr → Prop
  | inside (e : Expr) (n : Nat) : Desugars e (qdupExpr e n).1
  | qdup {e : Expr} (h : isQdupWord e = true) (span : Span) : Desugars e (.wordRef "dup" span)
  | dropped (thenBody : List Expr) (elseBody : Option (List Expr)) (span dropSpan : Span) (n m : Nat) :
      Desugars (.ifElse thenBody elseBody span)
        (.ifElse (qdupSeq thenBody n).1
          (some (.wordRef "drop" dropSpan :: (qdupSeq (elseBody.getD []) m).1)) span)

/-- The code of a piece of load-time code. -/
inductive EmittedAs (r : Sema) : Load → List Tok → Prop
  | run {e e' : Expr} (h : Desugars e e') : EmittedAs r (.run e) (emitExpr r e')
  | store (name : String) :
      EmittedAs r (.store name) [.symbol (valueStorageName (lower name)), setGlobal]

/-- The code that loading an emitted source executes, in the order in which it does. -/
def loadCode (ir : Ir) : List Tok :=
  ir.flatMap fun
    | .exec code => code
    | _ => []

/-- The storage that is set up in front of all load-time code. -/
def storageCode (r : Sema) : List Tok :=
  loadCode (r.program.items.flatMap (Item.declaration r (auxGenerics r.program.items)))

/-- Every piece of load-time code with an effect is executed once when the emitted source is loaded, in
source order, and no such piece is in a body that runs whenever its word is used. -/
structure LoadsOnce (eff : Load → Bool) (items : List Item) (r : Sema) (ir : Ir) : Prop where
  laidOut : ∃ codes, loadCode ir = storageCode r ++ codes.flatten ∧
    List.Forall₂ (EmittedAs r) (items.flatMap executed) codes
  once : (items.flatMap loads).filter eff = (items.flatMap executed).filter eff
  notRepeated : ∀ l ∈ items.flatMap repeated, eff l = false

/-! Template instances. -/

theorem flushCurrent_executed (current : List Expr) :
    (flushCurrent current).flatMap executed = runs current := by
  cases current with
  | nil => rfl
  | cons e es => exact List.append_nil _

theorem expandToplevel_leaves (templates : Dict String TemplateDef) :
    ∀ (todo current : List Expr), ∃ left,
      (expandToplevel templates current todo).flatMap executed = runs left ∧
        Leaves templates (current ++ todo) left := by
  intro todo
  -- an instance takes two expressions at once, hence the length
  induction h : todo.length using Nat.strong_induction_on generalizing todo with
  | _ n ih =>
  intro current
  match todo with
  | [] =>
    refine ⟨current, ?_, ?_⟩
    · rw [expandToplevel, flushCurrent_executed]
    · rw [List.append_nil]
      exact .all current
  | [e] =>
    refine ⟨current ++ [e], ?_, .all _⟩
    rw [expandToplevel, flushCurrent_executed]
  | e :: next :: rest =>
    have hNext : (next :: rest).length < n := by
      rw [← h]
      exact Nat.lt_succ_self _
    have hRest : rest.length < n := Nat.lt_of_succ_lt hNext
    -- the two ways no instance starts here end alike
    have hPlain : ∃ left, (expandToplevel templates (current ++ [e]) (next :: rest)).flatMap
        executed = runs left ∧ Leaves templates (current ++ e :: next :: rest) left := by
      obtain ⟨left, hRuns, hLeaves⟩ := ih _ hNext (next :: rest) rfl (current ++ [e])
      rw [List.append_assoc] at hLeaves
      exact ⟨left, hRuns, hLeaves⟩
    rw [expandToplevel.eq_def]
    dsimp only
    split
    · rename_i name span newname newSpan count hCount
      split
      · rename_i tmpl hTemplate
        obtain ⟨left, hRuns, hLeaves⟩ := ih _ hRest rest rfl []
        -- the count of the instance is the last expression of the run
        have hLast : ∃ last, current = current.dropLast ++ [last] ∧
            countLit (some last) = some count := by
          cases hGet : current.getLast? with
          | none =>
            rw [hGet] at hCount
            cases hCount
          | some last =>
            rw [hGet] at hCount
            refine ⟨last, ?_, hCount⟩
            exact (List.dropLast_append_getLast? last hGet).symm
        obtain ⟨last, hCurrent, hLit⟩ := hLast
        refine ⟨current.dropLast ++ left, ?_, ?_⟩
        · rw [List.flatMap_append, List.flatMap_cons, flushCurrent_executed, hRuns]
          simp [runs, executed]
        · have hTaken : Leaves templates (current.dropLast ++
              last :: .wordRef name span :: .wordRef newname newSpan :: rest)
              (current.dropLast ++ left) :=
            .instance_ current.dropLast (Dict.contains_iff.mpr ⟨_, hTemplate⟩) (by rw [hLit]; rfl)
              hLeaves
          have hEq : current ++ Expr.wordRef name span :: Expr.wordRef newname newSpan :: rest =
              current.dropLast ++
                last :: Expr.wordRef name span :: Expr.wordRef newname newSpan :: rest := by
            conv_lhs => rw [hCurrent]
            rw [List.append_assoc, List.singleton_append]
          rw [hEq]
          exact hTaken
      · exact hPlain
    · exact hPlain

/-! The rewriting of `?DUP IF`, one expression to one. -/

theorem qdupSeq_desugars : ∀ (es : List Expr) (n : Nat), List.Forall₂ Desugars es (qdupSeq es n).1 := by
  intro es
  induction h : es.length using Nat.strong_induction_on generalizing es with
  | _ k ih =>
  intro n
  rw [qdupSeq.eq_def]
  split
  · exact .nil
  · rename_i e rest
    have hRest : rest.length < k := by
      rw [← h]
      exact Nat.lt_succ_self _
    split
    · rename_i thenBody elseBody span after hQdup
      dsimp only
      have hAfter : after.length < k := Nat.lt_of_succ_lt hRest
      refine .cons (.qdup hQdup _) (.cons ?_ (ih _ hAfter after rfl _))
      cases elseBody with
      | none => exact .dropped thenBody none span _ _ 0
      | some body => exact .dropped thenBody (some body) span _ _ _
    · exact .cons (.inside e n) (ih _ hRest _ rfl _)

theorem emitExprs_flatten {r : Sema} (hWide : Wide r) (es : List Expr) :
    emitExprs r es = (es.map (emitExpr r)).flatten := by
  induction es with
  | nil => rfl
  | cons e es ih => rw [emitExprs_cons hWide, ih, List.map_cons, List.flatten_cons]

theorem runs_emitted {r : Sema} (es es' : List Expr) (h : List.Forall₂ Desugars es es') :
    List.Forall₂ (EmittedAs r) (runs es) (es'.map (emitExpr r)) := by
  induction h with
  | nil => exact .nil
  | cons hHead _ ih => exact .cons (.run hHead) ih

/-! The passes behind the parser, item by item. -/

/-- An item as it reaches the emitter, rewritten and resolved. -/
def lowered (wordTargets : Dict Span Target) (item : Item) (n : Nat) : Item :=
  ((item.lowerQdup n).1.lowerRecurse).lowerExit wordTargets

theorem lowered_execution {r : Sema} (hWide : Wide r) (wordTargets : Dict Span Target) (item : Item)
    (n : Nat) : ∃ codes, loadCode ((lowered wordTargets item n).execution r) = codes.flatten ∧
      List.Forall₂ (EmittedAs r) (executed item) codes := by
  cases item with
  | topLevel exprs span =>
    refine ⟨(qdupSeq exprs n).1.map (emitExpr r), ?_, runs_emitted _ _ (qdupSeq_desugars exprs n)⟩
    rw [← emitExprs_flatten hWide]
    exact List.append_nil _
  | value v =>
    have hRun := runs_emitted (r := r) _ _ (qdupSeq_desugars v.initial n)
    have hStore : List.Forall₂ (EmittedAs r) [.store v.name]
        [[.symbol (valueStorageName (lower v.name)), setGlobal]] := .cons (.store v.name) .nil
    refine ⟨(qdupSeq v.initial n).1.map (emitExpr r) ++
      [[.symbol (valueStorageName (lower v.name)), setGlobal]], ?_, List.rel_append hRun hStore⟩
    rw [List.flatten_append, ← emitExprs_flatten hWide]
    exact List.append_nil _
  | constant c =>
    refine ⟨[], ?_, .nil⟩
    obtain ⟨name, nameSpan, value, span, flavour⟩ := c
    cases value <;> rfl
  | _ => exact ⟨[], rfl, .nil⟩

theorem lowered_executions {r : Sema} (hWide : Wide r) (wordTargets : Dict Span Target) :
    ∀ (items : List Item) (n : Nat), ∃ codes,
      loadCode ((((lowerQdupItems items n).1.map Item.lowerRecurse).map
        (Item.lowerExit wordTargets)).flatMap (Item.execution r)) = codes.flatten ∧
      List.Forall₂ (EmittedAs r) (items.flatMap executed) codes
  | [], _ => ⟨[], rfl, .nil⟩
  | item :: items, n => by
    obtain ⟨codes, hCode, hAll⟩ := lowered_execution hWide wordTargets item n
    obtain ⟨more, hMore, hRest⟩ := lowered_executions hWide wordTargets items (item.lowerQdup n).2
    refine ⟨codes ++ more, ?_, ?_⟩
    · rw [List.flatten_append, ← hCode, ← hMore]
      exact List.flatMap_append
    · rw [List.flatMap_cons]
      exact List.rel_append hAll hRest

/-! What the source gives the later passes. -/

/-- The items of a source, with those of the files it needs in their places. -/
def program (host : Host) (fs : FileSystem) (source : String) (ctx : CompileContext) :
    Option (List Item) :=
  match compileItems host source with
  | .error _ => none
  | .ok own =>
    (expandNeeds host fs none own ctx.included (buildDocs host own source)).result.toOption.map
      Prod.fst

def knownTemplates (items : List Item) (prior : Dict String TemplateDef) :
    Dict String TemplateDef :=
  items.foldl (fun ts item =>
    match item with
    | .template t => Dict.insert ts (lower t.name) t
    | _ => ts) prior

/-- The load-time code of an item of the source, without what template instances take. -/
inductive SourceLoads (templates : Dict String TemplateDef) : Item → List Load → Prop
  | topLevel {exprs left : List Expr} {span : Span} (h : Leaves templates exprs left) :
      SourceLoads templates (.topLevel exprs span) (runs left)
  | other {item : Item} (h : ∀ exprs span, item ≠ .topLevel exprs span) :
      SourceLoads templates item (loads item)

theorem expandToplevel_repeated (templates : Dict String TemplateDef) :
    ∀ todo current : List Expr, (expandToplevel templates current todo).flatMap repeated = [] := by
  have hFlush : ∀ current : List Expr, (flushCurrent current).flatMap repeated = [] := by
    intro current
    cases current <;> rfl
  intro todo
  induction h : todo.length using Nat.strong_induction_on generalizing todo with
  | _ n ih =>
  intro current
  match todo with
  | [] => rw [expandToplevel, hFlush]
  | [e] => rw [expandToplevel, hFlush]
  | e :: next :: rest =>
    have hNext : (next :: rest).length < n := by
      rw [← h]
      exact Nat.lt_succ_self _
    have hPlain := ih _ hNext (next :: rest) rfl (current ++ [e])
    rw [expandToplevel.eq_def]
    dsimp only
    split
    · split
      · rw [List.flatMap_append, List.flatMap_cons, hFlush,
          ih _ (Nat.lt_of_succ_lt hNext) rest rfl []]
        rfl
      · exact hPlain
    · exact hPlain

theorem flatMap_loads {items : List Item} (h : items.flatMap repeated = []) :
    items.flatMap loads = items.flatMap executed := by
  induction items with
  | nil => rfl
  | cons item items ih =>
    rw [List.flatMap_cons, List.append_eq_nil_iff] at h
    rw [List.flatMap_cons, List.flatMap_cons, ih h.2, loads, h.1, List.append_nil]

/-- What stands in the place of an item once the templates are expanded. -/
def expandedItem (templates : Dict String TemplateDef) : Item → List Item
  | .topLevel exprs _ => expandToplevel templates [] exprs
  | other => [other]

/-- Expansion takes instances out of the runs, and leaves everything else where it is. -/
theorem expandTemplates_loads (items : List Item) (prior : Dict String TemplateDef) :
    (expandTemplates ⟨items⟩ prior).items.flatMap repeated = items.flatMap repeated ∧
    ∃ sources, List.Forall₂ (SourceLoads (knownTemplates items prior)) items sources ∧
      sources.flatten = (expandTemplates ⟨items⟩ prior).items.flatMap loads := by
  let templates := knownTemplates items prior
  have hDef : expandTemplates ⟨items⟩ prior = if templates.isEmpty then ⟨items⟩
      else ⟨items.flatMap (expandedItem templates)⟩ := by
    rw [expandTemplates]
    congr
  rw [hDef]
  split
  · refine ⟨rfl, items.map loads, ?_, (List.flatMap_def ..).symm⟩
    rw [List.forall₂_map_right_iff]
    apply List.forall₂_same.mpr
    intro item _
    cases item with
    | topLevel exprs span =>
      have hAll : SourceLoads templates (.topLevel exprs span) (runs exprs) :=
        .topLevel (.all exprs)
      have hLoads : loads (.topLevel exprs span) = runs exprs := List.append_nil _
      rw [hLoads]
      exact hAll
    | _ => exact .other fun _ _ h => by cases h
  · dsimp only
    -- every item keeps its runs, whatever list it stands in
    have hItems : ∀ its : List Item,
        (its.flatMap (expandedItem templates)).flatMap repeated = its.flatMap repeated ∧
        ∃ sources, List.Forall₂ (SourceLoads templates) its sources ∧
          sources.flatten = (its.flatMap (expandedItem templates)).flatMap loads := by
      intro its
      induction its with
      | nil => exact ⟨rfl, [], .nil, rfl⟩
      | cons item its ih =>
        obtain ⟨hRepeated, sources, hSources, hFlat⟩ := ih
        rw [List.flatMap_cons, List.flatMap_append, List.flatMap_append, hRepeated, ← hFlat]
        cases item with
        | topLevel exprs span =>
          obtain ⟨left, hRuns, hLeaves⟩ := expandToplevel_leaves templates exprs []
          have hNone := expandToplevel_repeated templates exprs []
          refine ⟨?_, runs left :: sources, .cons (.topLevel hLeaves) hSources, ?_⟩
          · rw [expandedItem, hNone, List.flatMap_cons]
            rfl
          · rw [expandedItem, flatMap_loads hNone, hRuns, List.flatten_cons]
        | _ =>
          refine ⟨?_, _ :: sources, .cons (.other fun _ _ h => by cases h) hSources, ?_⟩
          · rw [expandedItem, List.flatMap_cons, List.flatMap_cons, List.flatMap_nil, List.append_nil]
            exact fun _ _ h => by cases h
          · rw [expandedItem, List.flatMap_cons, List.flatMap_nil, List.append_nil, List.flatten_cons]
            exact fun _ _ h => by cases h
    exact hItems items

/-! The emitted source. -/

theorem loadCode_append (ir ir' : Ir) : loadCode (ir ++ ir') = loadCode ir ++ loadCode ir' :=
  List.flatMap_append

theorem loadCode_methods (r : Sema) (aux : List String) :
    ∀ (items : List Item) (helper : Nat), loadCode (emitMethods r aux items helper).1 = []
  | [], _ => rfl
  | .method m :: items, helper => by
    have hOne : loadCode (emitMethod m r aux helper).1 = [] := by
      unfold emitMethod
      split <;> rfl
    have hRest := loadCode_methods r aux items (emitMethod m r aux helper).2
    rw [emitMethods_method, loadCode_append, hOne, hRest]
    rfl
  | .definition _ :: items, helper => loadCode_methods r aux items helper
  | .variable _ :: items, helper => loadCode_methods r aux items helper
  | .constant _ :: items, helper => loadCode_methods r aux items helper
  | .create _ :: items, helper => loadCode_methods r aux items helper
  | .collection _ :: items, helper => loadCode_methods r aux items helper
  | .template _ :: items, helper => loadCode_methods r aux items helper
  | .templateInstance _ :: items, helper => loadCode_methods r aux items helper
  | .value _ :: items, helper => loadCode_methods r aux items helper
  | .class_ _ :: items, helper => loadCode_methods r aux items helper
  | .generic _ :: items, helper => loadCode_methods r aux items helper
  | .rawFactor _ :: items, helper => loadCode_methods r aux items helper
  | .topLevel _ _ :: items, helper => loadCode_methods r aux items helper
  | .needs _ _ :: items, helper => loadCode_methods r aux items helper

theorem loadCode_colonWords (r : Sema) (items : List Item) :
    loadCode (items.flatMap (Item.colonWord r)) = [] := by
  induction items with
  | nil => rfl
  | cons item items ih =>
    rw [List.flatMap_cons, loadCode_append, ih, List.append_nil]
    cases item with
    | definition d =>
      show loadCode [emitDefinition d r] = []
      unfold emitDefinition
      dsimp only
      split
      · rfl
      · split
        · split <;> rfl
        · rfl
    | _ => rfl

theorem loadCode_emit (r : Sema) (helper : Nat) : loadCode (emit r true helper).1 =
    storageCode r ++ loadCode (r.program.items.flatMap (Item.execution r)) := by
  show loadCode ([_, _] ++ r.program.items.flatMap (Item.declaration r _) ++
    (emitMethods r _ r.program.items helper).1 ++ r.program.items.flatMap (Item.colonWord r) ++
    r.program.items.flatMap (Item.execution r) ++ [_]) = _
  rw [loadCode_append, loadCode_append, loadCode_append, loadCode_append, loadCode_append,
    loadCode_methods, loadCode_colonWords, List.append_nil, List.append_nil]
  exact List.append_nil _

theorem analyse_program (host : Host) (fs : FileSystem) {source : String} {ctx : CompileContext}
    {synth : Nat} {s : Sema} (h : (analyse host fs source ctx synth).result = .ok s) :
    ∃ items wordTargets n, program host fs source ctx = some items ∧
      s.program.items = ((lowerQdupItems (expandTemplates ⟨items⟩ ctx.templates).items n).1.map
        Item.lowerRecurse).map (Item.lowerExit wordTargets) := by
  obtain ⟨own, items, docs, built, synth', hOwn, hItems, hBuild, rfl⟩ := analyse_ok host fs h
  obtain ⟨words, targets, -, -, rfl⟩ := build_ok hBuild
  refine ⟨items, targets, synth, ?_, rfl⟩
  unfold program
  rw [hOwn]
  dsimp only
  rw [hItems]
  rfl

/-- What a list keeps of an effect when only pieces without it are left out. -/
theorem filter_executed {eff : Load → Bool} {items : List Item}
    (h : ∀ l ∈ items.flatMap repeated, eff l = false) :
    (items.flatMap loads).filter eff = (items.flatMap executed).filter eff := by
  induction items with
  | nil => rfl
  | cons item items ih =>
    have hHead : (repeated item).filter eff = [] := by
      rw [List.filter_eq_nil_iff]
      intro l hl
      rw [h l (List.mem_flatMap.mpr ⟨item, List.mem_cons_self, hl⟩)]
      exact Bool.false_ne_true
    have hTail := ih fun l hl => h l (by
      rw [List.flatMap_cons]
      exact List.mem_append_right _ hl)
    rw [List.flatMap_cons, List.flatMap_cons, List.filter_append, List.filter_append, hTail, loads,
      List.filter_append, hHead, List.append_nil]

section
variable {host : Host} {fs : FileSystem} {source : String} {ctx : CompileContext} {synth : Nat}
variable {sema : Sema} (h : (analyse host fs source ctx synth).result = .ok sema)
include h

end

def isPrint : Load → Bool
  | .run (.lit (.str _ .dotQuote _)) => true
  | _ => false

/-- Prints around a template instance, a VALUE and a constant. -/
def mixed : String :=
  ": arr create cells allot does> swap cells + ; 4 arr b .\" a\" variable w " ++
    "3 .\" b\" value v 6 constant c .\" d\""

end FactorForth.Correctness
