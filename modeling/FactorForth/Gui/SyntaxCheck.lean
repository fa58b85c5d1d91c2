import FactorForth.Correctness.Inclusion
import FactorForth.Correctness.LatestDefinition

/-! The syntax check of the editor: the driver of a compile written again, over the tables of a context
that the worker has published. -/

namespace FactorForth.Gui
open FactorForth.Library FactorForth.Compiler FactorForth.Correctness

/-! The checker. -/

structure Diagnostic where
  line : Nat
  column : Nat
  message : String
deriving DecidableEq, Repr

def diagFromSpan (span : Span) (message : String) : Diagnostic :=
  ⟨span.start.line, span.start.col, message⟩

def compileErrorSpan : CompileError → Span
  | .unterminatedString _ openedAt => openedAt
  | .unterminatedBlockComment openedAt => openedAt
  | .malformedNumber _ at_ _ => at_

def parseErrorSpan : ParseError → Span
  | .expectedDefName at_ => at_
  | .expectedDefiningName _ at_ => at_
  | .constantWithoutValue _ at_ => at_
  | .nonLiteralConstantValue _ at_ => at_
  | .straySemicolon at_ => at_
  | .malformedStackEffect at_ _ => at_
  | .strayControlWord _ at_ => at_
  | .letSyntax at_ _ => at_
  | .nestedColon _ inner => inner
  | .unterminatedDefinition openedAt => openedAt
  | .unterminatedControl _ openedAt _ => openedAt

def resolveErrorSpan : ResolveError → Span
  | .unknownWord _ at_ => at_
  | .redefinedWord _ at_ _ => at_
  | .recurseNeedsEffect _ at_ => at_
  | .toNotValue _ at_ => at_

def effectErrorSpan : EffectError → Span
  | .mismatch _ at_ _ _ => at_
  | .caseNeedsDefault _ at_ => at_

/-- The state that `build_sema` starts from. -/
def noPrior : PriorState := ⟨[], [], [], [], []⟩

/-- The installed checker. It has no snapshot until the worker runs. -/
def checkSource (host : Host) (snapshot : Option CompileContext) (source : String) (synth : Nat) :
    List Diagnostic :=
  match lex source with
  | .error err => [diagFromSpan (compileErrorSpan err) err.display]
  | .ok tokens =>
    match parse host.parseLet tokens with
    | .error err => [diagFromSpan (parseErrorSpan err) err.display]
    | .ok program =>
      let prior := match snapshot with
        | some snap => snap.prior
        | none => noPrior
      match (buildWithPriorState program prior synth).1 with
      | .error err => [diagFromSpan (resolveErrorSpan err) err.display]
      | .ok sema => sema.effectErrors.map fun err => diagFromSpan (effectErrorSpan err) err.display

/-- A compile that succeeds without warnings. -/
def Clean (c : Compiled) : Prop := ∃ ir, c.result = .ok (ir, [])

/-! A build does not look at NEEDS. -/

/-- The items that an expansion leaves in the program. -/
def isOwn : Item → Bool
  | .needs _ _ => false
  | _ => true

theorem isOwn_cases (item : Item) : isOwn item = true ∨ ∃ path span, item = .needs path span := by
  cases item with
  | needs path span => exact .inr ⟨path, span, rfl⟩
  | _ => exact .inl rfl

theorem filter_needs (path : String) (span : Span) (items : List Item) :
    (Item.needs path span :: items).filter isOwn = items.filter isOwn := rfl

/-- A traversal that skips what NEEDS gives may skip NEEDS. -/
theorem own_flatMap {α : Type} {f : Item → List α} (hNeeds : ∀ path span, f (.needs path span) = [])
    (items : List Item) : (items.filter isOwn).flatMap f = items.flatMap f := by
  induction items with
  | nil => rfl
  | cons item items ih =>
    rcases isOwn_cases item with hOwn | ⟨path, span, rfl⟩
    · rw [List.filter_cons_of_pos hOwn, List.flatMap_cons, List.flatMap_cons, ih]
    · rw [filter_needs, List.flatMap_cons, hNeeds, List.nil_append, ih]

theorem own_filterMap {α : Type} {f : Item → Option α}
    (hNeeds : ∀ path span, f (.needs path span) = none) (items : List Item) :
    (items.filter isOwn).filterMap f = items.filterMap f := by
  rw [List.filterMap_eq_flatMap_toList, List.filterMap_eq_flatMap_toList]
  apply own_flatMap
  intro path span
  rw [hNeeds]
  rfl

theorem own_foldl {β : Type} {f : β → Item → β} (hNeeds : ∀ b path span, f b (.needs path span) = b)
    (items : List Item) (b : β) : (items.filter isOwn).foldl f b = items.foldl f b := by
  induction items generalizing b with
  | nil => rfl
  | cons item items ih =>
    rcases isOwn_cases item with hOwn | ⟨path, span, rfl⟩
    · rw [List.filter_cons_of_pos hOwn, List.foldl_cons, List.foldl_cons, ih]
    · rw [filter_needs, List.foldl_cons, hNeeds, ih]

theorem own_map {f : Item → Item} (hKeeps : ∀ item, isOwn (f item) = isOwn item) (items : List Item) :
    (items.filter isOwn).map f = (items.map f).filter isOwn := by
  rw [List.filter_map]
  congr 1
  apply List.filter_congr
  intro item _
  exact (hKeeps item).symm

theorem own_expanded {f : Item → List Item} (hNeeds : ∀ path span, f (.needs path span) = [.needs path span])
    (hOwn : ∀ item, isOwn item = true → ∀ other ∈ f item, isOwn other = true) (items : List Item) :
    (items.filter isOwn).flatMap f = (items.flatMap f).filter isOwn := by
  induction items with
  | nil => rfl
  | cons item items ih =>
    rw [List.flatMap_cons, List.filter_append]
    rcases isOwn_cases item with hItem | ⟨path, span, rfl⟩
    · rw [List.filter_cons_of_pos hItem, List.flatMap_cons, List.filter_eq_self.mpr (hOwn item hItem), ih]
    · rw [filter_needs, hNeeds, ih]
      rfl

theorem expandTemplates_own (items : List Item) (prior : Dict String TemplateDef) :
    (expandTemplates ⟨items.filter isOwn⟩ prior).items =
      (expandTemplates ⟨items⟩ prior).items.filter isOwn := by
  unfold expandTemplates
  dsimp only
  rw [own_foldl (fun _ _ _ => rfl)]
  split
  · rfl
  · apply own_expanded (fun _ _ => rfl)
    intro item hOwn
    cases item with
    | topLevel exprs span => exact expandToplevel_items (fun _ _ => rfl) (fun _ _ _ _ _ _ => rfl) [] exprs
    | _ => simpa using hOwn

theorem lowerQdupItems_own (items : List Item) : ∀ n : Nat,
    lowerQdupItems (items.filter isOwn) n =
      ((lowerQdupItems items n).1.filter isOwn, (lowerQdupItems items n).2) := by
  induction items with
  | nil => exact fun _ => rfl
  | cons item items ih =>
    intro n
    rcases isOwn_cases item with hOwn | ⟨path, span, rfl⟩
    · have hLowered : isOwn (item.lowerQdup n).1 = true := by
        cases item with
        | needs path span => cases hOwn
        | constant c =>
          rcases c with ⟨name, nameSpan, value, span, flavour⟩
          cases value <;> rfl
        | _ => rfl
      rw [List.filter_cons_of_pos hOwn]
      simp only [lowerQdupItems, ih, List.filter_cons_of_pos hLowered]
    · exact ih n

theorem prepare_own (items : List Item) (prior : Dict String TemplateDef) (synth : Nat) :
    prepare ⟨items.filter isOwn⟩ prior synth =
      ((⟨(prepare ⟨items⟩ prior synth).1.1.items.filter isOwn⟩, (prepare ⟨items⟩ prior synth).1.2),
        (prepare ⟨items⟩ prior synth).2) := by
  have hMap : ∀ item, isOwn (Item.lowerRecurse item) = isOwn item := by
    intro item
    cases item <;> rfl
  unfold prepare lowerQdup lowerRecurse
  dsimp only
  rw [expandTemplates_own, lowerQdupItems_own]
  dsimp only
  rw [own_map hMap, own_filterMap (fun _ _ => rfl)]

theorem resolve_own (items : List Item) (words values : Dict String Span)
    (slots : Dict String (List String)) :
    resolve ⟨items.filter isOwn⟩ words values slots =
      (resolve ⟨items⟩ words values slots).map fun r => { r with program := ⟨items.filter isOwn⟩ } := by
  have hValues : localValueNames (items.filter isOwn) = localValueNames items :=
    own_foldl (fun _ _ _ => rfl) items []
  unfold resolve
  dsimp only
  rw [own_flatMap (fun _ _ => rfl), own_flatMap (fun _ _ => rfl), hValues]
  cases register (items.flatMap (Item.introduced slots)) [] with
  | error e => rfl
  | ok own =>
    show (resolveBodies _ _ _ _ >>= _) = ((resolveBodies _ _ _ _ >>= _).map _)
    cases resolveBodies (Dict.merge words own) (Dict.merge values (localValueNames items))
        (items.flatMap Item.resolvedBodies) [] with
    | error e => rfl
    | ok targets => rfl

theorem resolve_program {prog : Program} {words values : Dict String Span}
    {slots : Dict String (List String)} {resolved : Resolved}
    (h : resolve prog words values slots = .ok resolved) : resolved.program = prog := by
  obtain ⟨own, -, hRest⟩ := ok_of_bind h
  obtain ⟨targets, -, hDone⟩ := ok_of_bind hRest
  rw [← Except.ok.inj hDone]

theorem semaOfResolved_own (resolved : Resolved) (slots : Dict String (List String))
    (effects : Dict String Effect) :
    (semaOfResolved { resolved with program := ⟨resolved.program.items.filter isOwn⟩ } slots
      effects).effectErrors = (semaOfResolved resolved slots effects).effectErrors := by
  have hMap : ∀ item, isOwn (Item.lowerExit resolved.wordTargets item) = isOwn item := by
    intro item
    cases item <;> rfl
  unfold semaOfResolved inferWithPrior
  dsimp only
  rw [own_map hMap]
  have hDefinitions : ∀ items, definitions (items.filter isOwn) = definitions items :=
    fun items => own_filterMap (fun _ _ => rfl) items
  have hSeeds : ∀ items, seedEffects (items.filter isOwn) effects = seedEffects items effects :=
    fun items => own_foldl (fun _ _ _ => rfl) items effects
  rw [hDefinitions, hSeeds]

/-- What a build reports: its error, or its warnings. -/
def report (r : Except ResolveError Sema) : Except ResolveError (List EffectError) :=
  r.map Sema.effectErrors

theorem build_own (items : List Item) (prior : PriorState) (synth : Nat) :
    report (buildWithPriorState ⟨items.filter isOwn⟩ prior synth).1 =
      report (buildWithPriorState ⟨items⟩ prior synth).1 := by
  unfold buildWithPriorState
  rw [prepare_own]
  obtain ⟨⟨prog, missing⟩, synth'⟩ := prepare ⟨items⟩ prior.templates synth
  cases missing with
  | cons first rest => rfl
  | nil =>
    have hSlots : computeClassSlots ⟨prog.items.filter isOwn⟩ prior.classes =
        computeClassSlots prog prior.classes := own_foldl (fun _ _ _ => rfl) prog.items prior.classes
    dsimp only
    rw [hSlots, resolve_own]
    cases hResolve : resolve prog prior.userWords prior.values (computeClassSlots prog prior.classes) with
    | error e => rfl
    | ok resolved =>
      obtain rfl := resolve_program hResolve
      exact congrArg Except.ok (semaOfResolved_own resolved _ prior.effects)

/-! The check against the compile. -/

section
variable (host : Host) (fs : FileSystem) (source : String) (ctx : CompileContext)

/-- Every NEEDS of the text names a file that is included already. -/
def NeedsIncluded : Prop := ∀ items, compileItems host source = .ok items →
  ∀ path span, .needs path span ∈ items → fs.key (needsPath fs none path) ∈ ctx.included

/-- The text does not parse, or the tree of its inclusions has no items but its own. -/
def AddsNothing : Prop := ∀ items, compileItems host source = .ok items →
  ∃ t, IsTree host fs none items ctx.included t ∧ t.splice = items.filter isOwn

/-- The verdict of the checker, by the build of the items without NEEDS. -/
theorem check_silent {synth : Nat} : checkSource host (some ctx) source synth = [] ↔
    ∃ items, compileItems host source = .ok items ∧
      report (buildWithPriorState ⟨items.filter isOwn⟩ ctx.prior synth).1 = .ok [] := by
  unfold checkSource compileItems
  cases lex source with
  | error err => simp
  | ok tokens =>
    cases hParse : parse host.parseLet tokens with
    | error err => simp [hParse]
    | ok program =>
      obtain ⟨items⟩ := program
      simp only [hParse, Except.ok.injEq, exists_eq_left', build_own]
      cases hBuild : (buildWithPriorState ⟨items⟩ ctx.prior synth).1 with
      | error err => simp [report, Except.map]
      | ok sema => simp [report, Except.map]

theorem clean_analyse {counters : Counters} :
    Clean (compileInContextWithDiagnostics host fs source ctx counters) ↔
      ∃ sema, (analyse host fs source ctx counters.synth).result = .ok sema ∧ sema.effectErrors = [] := by
  unfold Clean compileInContextWithDiagnostics
  dsimp only
  cases (analyse host fs source ctx counters.synth).result with
  | error e => simp
  | ok sema => simp

theorem compile_clean {counters : Counters} :
    Clean (compileInContextWithDiagnostics host fs source ctx counters) ↔
      ∃ items out docs, compileItems host source = .ok items ∧
        (expandNeeds host fs none items ctx.included (buildDocs host items source)).result =
          .ok (out, docs) ∧
        report (buildWithPriorState ⟨out⟩ ctx.prior counters.synth).1 = .ok [] := by
  rw [clean_analyse]
  constructor
  · rintro ⟨sema, hSema, hErrors⟩
    obtain ⟨items, out, docs, built, synth', hItems, hExpand, hBuild, rfl⟩ := analyse_ok host fs hSema
    refine ⟨items, out, docs, hItems, hExpand, ?_⟩
    rw [hBuild]
    exact congrArg Except.ok hErrors
  · rintro ⟨items, out, docs, hItems, hExpand, hReport⟩
    unfold analyse
    rw [hItems]
    dsimp only
    rw [hExpand]
    dsimp only
    cases hBuild : buildWithPriorState ⟨out⟩ ctx.prior counters.synth with
    | mk built synth' =>
      rw [hBuild] at hReport
      cases built with
      | error e => cases hReport
      | ok sema => exact ⟨_, rfl, Except.ok.inj hReport⟩

/-- When every NEEDS is passed over, the tree has the items without them. -/
theorem passed_tree {base : Option String} {items : List Item} {included : List String}
    (h : ∀ path span, .needs path span ∈ items → fs.key (needsPath fs base path) ∈ included) :
    ∃ t, IsTree host fs base items included t ∧ t.splice = items.filter isOwn := by
  induction items with
  | nil => exact ⟨.done, ⟨.done, FirstVisits.nil⟩, rfl⟩
  | cons item items ih =>
    obtain ⟨rest, hRest, hSplice⟩ := ih fun path span hIn => h path span (List.mem_cons_of_mem _ hIn)
    rcases isOwn_cases item with hOwn | ⟨path, span, rfl⟩
    · have hItem : ∀ path span, item ≠ .needs path span := by
        rintro path span rfl
        cases hOwn
      refine ⟨.own item rest, (IsTree.cons_own hItem).mpr ⟨rest, rfl, hRest⟩, ?_⟩
      rw [List.filter_cons_of_pos hOwn, ← hSplice]
      rfl
    · have hKey := h path span List.mem_cons_self
      exact ⟨_, (IsTree.cons_passed hKey).mpr ⟨rest, rfl, hRest⟩, hSplice⟩

variable {host fs source ctx} in
theorem NeedsIncluded.addsNothing (h : NeedsIncluded host fs source ctx) :
    AddsNothing host fs source ctx := fun items hItems => passed_tree host fs (h items hItems)

/-- Without any file an expansion succeeds only when every NEEDS is passed over. -/
theorem expandNeeds_noFiles {base : Option String} {items : List Item} {included : List String}
    {docs : Dict String WordDoc} {out : List Item × Dict String WordDoc}
    (h : (expandNeeds host { fs with files := [] } base items included docs).result = .ok out) :
    ∀ path span, .needs path span ∈ items → fs.key (needsPath fs base path) ∈ included := by
  induction items generalizing out with
  | nil => exact fun _ _ hIn => nomatch hIn
  | cons item items ih =>
    rcases isOwn_cases item with hOwn | ⟨path, span, rfl⟩
    · have hItem : ∀ path span, item ≠ .needs path span := by
        rintro path span rfl
        cases hOwn
      rw [expandNeeds_other host _ hItem] at h
      obtain ⟨rest, hRest, -⟩ := ok_of_map h
      intro path span hIn
      rcases List.mem_cons.mp hIn with hBad | hTail
      · exact absurd hBad.symm (hItem path span)
      · exact ih hRest path span hTail
    · by_cases hKey : fs.key (needsPath fs base path) ∈ included
      · rw [expandNeeds_included host { fs with files := [] } hKey] at h
        intro path' span' hIn
        rcases List.mem_cons.mp hIn with hSame | hTail
        · obtain ⟨rfl, rfl⟩ := Item.needs.inj hSame
          exact hKey
        · exact ih h path' span' hTail
      · have hUnread : ∃ e, FileSystem.readToString { fs with files := [] }
            (needsPath { fs with files := [] } base path) = .error e := by
          unfold FileSystem.readToString
          cases fs.canonicalize (needsPath { fs with files := [] } base path) <;> exact ⟨_, rfl⟩
        obtain ⟨e, hRead⟩ := hUnread
        rw [expandNeeds_unreadable host { fs with files := [] } hKey hRead] at h
        cases h

/-- A check and a compile read the same program when the inclusions add no item. -/
theorem check_clean {counters : Counters} (h : AddsNothing host fs source ctx) :
    checkSource host (some ctx) source counters.synth = [] ↔
      Clean (compileInContextWithDiagnostics host fs source ctx counters) := by
  rw [check_silent, compile_clean]
  have hExpand : ∀ items, compileItems host source = .ok items → ∃ docs,
      (expandNeeds host fs none items ctx.included (buildDocs host items source)).result =
        .ok (items.filter isOwn, docs) := by
    intro items hItems
    obtain ⟨t, hTree, hSplice⟩ := h items hItems
    obtain ⟨docs, hResult, -⟩ := (expands host fs none items ctx.included
      (buildDocs host items source)).complete t hTree
    rw [hSplice] at hResult
    exact ⟨docs, hResult⟩
  constructor
  · rintro ⟨items, hItems, hReport⟩
    obtain ⟨docs, hResult⟩ := hExpand items hItems
    exact ⟨items, _, docs, hItems, hResult, hReport⟩
  · rintro ⟨items, out, docs, hItems, hOut, hReport⟩
    obtain ⟨docs', hResult⟩ := hExpand items hItems
    rw [hResult] at hOut
    obtain ⟨rfl, -⟩ := Prod.mk.inj (Except.ok.inj hOut)
    exact ⟨items, hItems, hReport⟩

end

/-- The checker is silent exactly when the compile is clean, if the files that NEEDS opens add no item.
A silent checker is right about every content of the file system exactly when every NEEDS names a file
that is included already. -/
theorem check_agrees (host : Host) (fs : FileSystem) (source : String) (ctx : CompileContext)
    (counters : Counters) :
    (AddsNothing host fs source ctx → (checkSource host (some ctx) source counters.synth = [] ↔
      Clean (compileInContextWithDiagnostics host fs source ctx counters))) ∧
    (checkSource host (some ctx) source counters.synth = [] →
      ((∀ files, Clean (compileInContextWithDiagnostics host { fs with files := files } source ctx
        counters)) ↔ NeedsIncluded host fs source ctx)) := by
  constructor
  · exact check_clean host fs source ctx
  · intro hSilent
    constructor
    · intro hClean items hItems path span hIn
      obtain ⟨items', out, docs, hItems', hExpand, -⟩ := (compile_clean host _ source ctx).mp (hClean [])
      obtain rfl := Except.ok.inj (hItems'.symm.trans hItems)
      exact expandNeeds_noFiles host fs hExpand path span hIn
    · intro hIncluded files
      -- the keys of the files do not depend on their contents
      have hSame : NeedsIncluded host { fs with files := files } source ctx := hIncluded
      exact (check_clean host _ source ctx hSame.addsNothing).mp hSilent

theorem check_agrees_oneWord :
    (checkSource noLet (some .new) ": f dup ;" Counters.start.synth = [] ↔
      Clean (compileInContextWithDiagnostics noLet noFiles ": f dup ;" .new .start)) ∧
    ((∀ files, Clean (compileInContextWithDiagnostics noLet { noFiles with files := files } ": f dup ;"
      .new .start)) ↔ NeedsIncluded noLet noFiles ": f dup ;" .new) := by
  have hOwn : (compileItems noLet ": f dup ;").toOption.map (fun items => items.all isOwn) = some true := by
    decide +kernel
  have hIncluded : NeedsIncluded noLet noFiles ": f dup ;" .new := by
    intro items hItems path span hIn
    rw [hItems] at hOwn
    have hItem := List.all_eq_true.mp (Option.some.inj hOwn) _ hIn
    cases hItem
  have hSilent : checkSource noLet (some .new) ": f dup ;" Counters.start.synth = [] := by decide +kernel
  obtain ⟨hAgrees, hAll⟩ := check_agrees noLet noFiles ": f dup ;" .new .start
  exact ⟨hAgrees hIncluded.addsNothing, hAll hSilent⟩

/-- The checker does not know the word that the compile takes from a file. -/
theorem check_not_agrees :
    ¬ ∀ (fs : FileSystem) (source : String) (ctx : CompileContext) (counters : Counters),
      (checkSource noLet (some ctx) source counters.synth = [] ↔
        Clean (compileInContextWithDiagnostics noLet fs source ctx counters)) := by
  intro hAll
  have hLibrary := hAll { noFiles with files := [("l", ": f dup ;")] } "needs l 1 f" .new .start
  have hLoud : checkSource noLet (some .new) "needs l 1 f" Counters.start.synth ≠ [] := by decide +kernel
  have hClean : (compileInContextWithDiagnostics noLet { noFiles with files := [("l", ": f dup ;")] }
      "needs l 1 f" .new .start).result.toOption.map Prod.snd = some [] := by
    decide +kernel
  apply hLoud
  apply hLibrary.mpr
  unfold Clean
  cases hResult : (compileInContextWithDiagnostics noLet { noFiles with files := [("l", ": f dup ;")] }
      "needs l 1 f" .new .start).result with
  | error e =>
    rw [hResult] at hClean
    cases hClean
  | ok r =>
    obtain ⟨ir, warnings⟩ := r
    rw [hResult] at hClean
    obtain rfl := Option.some.inj hClean
    exact ⟨ir, rfl⟩

end FactorForth.Gui
