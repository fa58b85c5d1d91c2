import FactorForth.Compiler.Driver
import FactorForth.Compiler.Occurrences
import FactorForth.Correctness.Session

/-! Files compiled on their own: when a source defines nothing and names nothing of the session, it
compiles to the same code in the context of the session and in a new one. -/

namespace FactorForth.Correctness
open FactorForth.Library FactorForth.Compiler

/-! What a body asks about. -/

mutual
/-- The names whose `SEE` reports an expression shows. -/
def exprSeen : Expr → List String
  | .see name _ => [lower name]
  | .ifElse thenBody none _ => seen thenBody
  | .ifElse thenBody (some elseBody) _ => seen thenBody ++ seen elseBody
  | .beginUntil body _ => seen body
  | .beginAgain body _ => seen body
  | .doLoop _ body _ _ => seen body
  | .beginWhileRepeat pred body _ => seen pred ++ seen body
  | .caseOf arms none _ => armsSeen arms
  | .caseOf arms (some default) _ => armsSeen arms ++ seen default
  | _ => []

def armsSeen : List (CaseArm Expr) → List String
  | [] => []
  | ⟨matchExpr, body, _⟩ :: arms => seen matchExpr ++ seen body ++ armsSeen arms

def seen : List Expr → List String
  | [] => []
  | e :: es => exprSeen e ++ seen es
end

/-! Resolution in a larger scope. -/

section Resolution
variable {sc sc' : Scope}

/-- The larger scope has the same words for the occurrences, and the values of the smaller one. -/
structure Extends (sc sc' : Scope) (os : List (String × Span)) : Prop where
  target : ∀ o ∈ os, sc'.target o.1 = sc.target o.1
  values : ∀ n, Dict.contains sc.valueNames n = true → Dict.contains sc'.valueNames n = true

theorem Extends.left {os os' : List (String × Span)} (h : Extends sc sc' (os ++ os')) :
    Extends sc sc' os := ⟨fun o ho => h.target o (List.mem_append_left _ ho), h.values⟩

theorem Extends.right {os os' : List (String × Span)} (h : Extends sc sc' (os ++ os')) :
    Extends sc sc' os' := ⟨fun o ho => h.target o (List.mem_append_right _ ho), h.values⟩

theorem resolveName_extends {name : String} {span : Span} {out out' : Dict Span Target}
    (hExt : Extends sc sc' [(name, span)]) (h : resolveName sc name span out = .ok out') :
    resolveName sc' name span out = .ok out' := by
  have hTarget : sc'.target name = sc.target name := hExt.target (name, span) List.mem_cons_self
  unfold resolveName at h ⊢
  rw [hTarget]
  exact h

mutual
theorem resolveExpr_extends : ∀ (e : Expr) {out out' : Dict Span Target},
    Extends sc sc' (exprOccurrences e) → resolveExpr sc e out = .ok out' →
      resolveExpr sc' e out = .ok out'
  | .lit _, _, _, _, h => h
  | .wordRef _ _, _, _, hExt, h => resolveName_extends hExt h
  | .toValue name _, _, _, hExt, h => by
    simp only [resolveExpr] at h ⊢
    split at h
    · rename_i hValue
      rw [if_pos (hExt.values _ hValue)]
      exact h
    · cases h
  | .see _ _, _, _, _, h => h
  | .ifElse thenBody none _, _, _, hExt, h => resolveExprs_extends thenBody hExt h
  | .ifElse thenBody (some elseBody) _, _, _, hExt, h => by
    obtain ⟨mid, hThen, hElse⟩ := ok_of_bind h
    simp only [resolveExpr, resolveExprs_extends thenBody hExt.left hThen]
    exact resolveExprs_extends elseBody hExt.right hElse
  | .beginUntil body _, _, _, hExt, h => resolveExprs_extends body hExt h
  | .beginAgain body _, _, _, hExt, h => resolveExprs_extends body hExt h
  | .beginWhileRepeat pred body _, _, _, hExt, h => by
    obtain ⟨mid, hPred, hBody⟩ := ok_of_bind h
    simp only [resolveExpr, resolveExprs_extends pred hExt.left hPred]
    exact resolveExprs_extends body hExt.right hBody
  | .doLoop _ body _ _, _, _, hExt, h => resolveExprs_extends body hExt h
  | .caseOf arms none _, _, _, hExt, h => resolveArms_extends arms hExt h
  | .caseOf arms (some default) _, _, _, hExt, h => by
    obtain ⟨mid, hArms, hDefault⟩ := ok_of_bind h
    simp only [resolveExpr, resolveArms_extends arms hExt.left hArms]
    exact resolveExprs_extends default hExt.right hDefault
  | .tick _ _, _, _, hExt, h => resolveName_extends hExt h
  | .letForm _ _, _, _, _, h => h
  | .locals _ _, _, _, _, h => h

theorem resolveArms_extends : ∀ (arms : List (CaseArm Expr)) {out out' : Dict Span Target},
    Extends sc sc' (armsOccurrences arms) → resolveArms sc arms out = .ok out' →
      resolveArms sc' arms out = .ok out'
  | [], _, _, _, h => h
  | ⟨matchExpr, body, _⟩ :: arms, _, _, hExt, h => by
    obtain ⟨mid, hMatch, hRest⟩ := ok_of_bind h
    obtain ⟨mid', hBody, hArms⟩ := ok_of_bind hRest
    simp only [resolveArms, resolveExprs_extends matchExpr hExt.left.left hMatch]
    show (resolveExprs sc' body mid >>= fun out => resolveArms sc' arms out) = _
    simp only [resolveExprs_extends body hExt.left.right hBody]
    exact resolveArms_extends arms hExt.right hArms

theorem resolveExprs_extends : ∀ (es : List Expr) {out out' : Dict Span Target},
    Extends sc sc' (occurrences es) → resolveExprs sc es out = .ok out' →
      resolveExprs sc' es out = .ok out'
  | [], _, _, _, h => h
  | e :: es, _, _, hExt, h => by
    obtain ⟨mid, hFirst, hRest⟩ := ok_of_bind h
    simp only [resolveExprs, resolveExpr_extends e hExt.left hFirst]
    exact resolveExprs_extends es hExt.right hRest
end

end Resolution

/-! Emission from two models of the same code. -/

section Emission
variable {r r' : Sema}

/-- The models record the same targets and escapes, and the same about what is shown. -/
structure SameCode (r r' : Sema) (shown : List String) : Prop where
  targets : r.wordTargets = r'.wordTargets
  escape : r.escape = r'.escape
  docs : ∀ n ∈ shown, r.docs.lookup n = r'.docs.lookup n

theorem SameCode.left {shown shown' : List String} (h : SameCode r r' (shown ++ shown')) :
    SameCode r r' shown :=
  ⟨h.targets, h.escape, fun n hn => h.docs n (List.mem_append_left _ hn)⟩

theorem SameCode.right {shown shown' : List String} (h : SameCode r r' (shown ++ shown')) :
    SameCode r r' shown' :=
  ⟨h.targets, h.escape, fun n hn => h.docs n (List.mem_append_right _ hn)⟩

theorem emitWord_same {shown : List String} (h : SameCode r r' shown) (name : String) (span : Span) :
    emitWord r name span = emitWord r' name span := by
  rw [emitWord, emitWord, h.targets]

theorem seeReport_same {name : String} (h : SameCode r r' [lower name]) :
    seeReport r.docs name = seeReport r'.docs name := by
  unfold seeReport
  dsimp only
  rw [h.docs _ List.mem_cons_self]

mutual
theorem emitExpr_same : ∀ e : Expr, SameCode r r' (exprSeen e) → emitExpr r e = emitExpr r' e
  | .lit _, _ => rfl
  | .wordRef name span, h => by rw [emitExpr, emitExpr, emitWord_same h]
  | .ifElse thenBody none _, h => by
    rw [emitExpr, emitExpr, emitExprs_same thenBody h]
  | .ifElse thenBody (some elseBody) _, h => by
    rw [emitExpr, emitExpr, emitExprs_same thenBody h.left, emitExprs_same elseBody h.right]
  | .beginUntil body _, h => by rw [emitExpr, emitExpr, emitExprs_same body h]
  | .beginWhileRepeat pred body _, h => by
    rw [emitExpr, emitExpr, emitExprs_same pred h.left, emitExprs_same body h.right]
  | .beginAgain body _, h => by rw [emitExpr, emitExpr, emitExprs_same body h]
  | .doLoop _ body _ _, h => by rw [emitExpr, emitExpr, emitExprs_same body h]
  | .caseOf arms none _, h => by rw [emitExpr, emitExpr, emitCaseChain_same arms h]
  | .caseOf arms (some default) _, h => by
    rw [emitExpr, emitExpr, emitExprs_same default h.right, emitCaseChain_same arms h.left]
  | .tick name span, h => by rw [emitExpr, emitExpr, emitWord_same h]
  | .toValue _ _, _ => rfl
  | .see name _, h => by rw [emitExpr, emitExpr, seeReport_same h]
  | .letForm _ _, _ => rfl
  | .locals _ _, _ => rfl

theorem emitCaseChain_same : ∀ (arms : List (CaseArm Expr)) {base : List Tok},
    SameCode r r' (armsSeen arms) → emitCaseChain r arms base = emitCaseChain r' arms base
  | [], _, _ => rfl
  | ⟨matchExpr, body, _⟩ :: arms, _, h => by
    rw [emitCaseChain, emitCaseChain, emitExprs_same matchExpr h.left.left,
      emitExprs_same body h.left.right, emitCaseChain_same arms h.right]

theorem emitExprs_same : ∀ es : List Expr, SameCode r r' (seen es) → emitExprs r es = emitExprs r' es
  | [], _ => rfl
  | [e], h => by rw [emitExprs, emitExprs, emitExpr_same e h.left]
  | e :: next :: rest, h => by
    have hRest := emitExprs_same rest h.right.right
    have hTail := emitExprs_same (next :: rest) h.right
    rw [emitExprs, emitExprs, h.escape, hRest, hTail, emitExpr_same e h.left]
end

theorem emitBody_same {body : List Expr} (h : SameCode r r' (seen body)) :
    emitBody r body = emitBody r' body := by
  rw [emitBody, emitBody, h.targets, emitExprs_same body h]

end Emission

/-! Sources that define nothing. -/

/-- Load-time code, a method, or raw Factor: an item that gives the session no name. -/
def Item.plain : Item → Bool
  | .topLevel _ _ => true
  | .method _ => true
  | .rawFactor _ => true
  | _ => false

/-- An item without the span of its run, which the expansion of templates recomputes. -/
def Item.unspanned : Item → Item
  | .topLevel exprs _ => .topLevel exprs ⟨.start, .start⟩
  | item => item

def namesTemplate (templates : Dict String TemplateDef) : Expr → Bool
  | .wordRef name _ => (templates.lookup (lower name)).isSome
  | _ => false

/-- No template of the session is named in the runs of the item; the parser makes no empty run. -/
def Item.unexpanded (templates : Dict String TemplateDef) : Item → Bool
  | .topLevel exprs _ => !exprs.isEmpty && !exprs.any (namesTemplate templates)
  | _ => true

section Plain

theorem foldl_fixed_of {α β : Type} {f : β → α → β} {b : β} {xs : List α}
    (h : ∀ x ∈ xs, f b x = b) : xs.foldl f b = b := by
  induction xs with
  | nil => rfl
  | cons x xs ih =>
    rw [List.foldl_cons, h x List.mem_cons_self]
    exact ih fun y hy => h y (List.mem_cons_of_mem _ hy)

theorem expandToplevel_none (templates : Dict String TemplateDef) (es : List Expr) :
    ∀ current : List Expr,
      (∀ e ∈ es, namesTemplate templates e = false) →
      expandToplevel templates current es = flushCurrent (current ++ es) := by
  induction es with
  | nil => 
    intro current _
    rw [expandToplevel, List.append_nil]
  | cons e es ih =>
    intro current hNone
    have hRest := ih (current ++ [e]) fun other hMem => hNone other (List.mem_cons_of_mem _ hMem)
    rw [List.append_assoc, List.singleton_append] at hRest
    cases es with
    | nil => rw [expandToplevel]
    | cons next rest =>
      unfold expandToplevel
      split
      · rename_i name span newname newSpan count hCount
        have hNoTemplate : templates.lookup (lower name) = none := by
          simpa [namesTemplate] using hNone _ List.mem_cons_self
        rw [hNoTemplate]
        exact hRest
      · exact hRest

/-- A run in which no template is named stays one run. -/
theorem expandItem_unspanned {templates : Dict String TemplateDef} {item : Item}
    (hNone : Item.unexpanded templates item = true) :
    (match item with
      | .topLevel exprs _ => expandToplevel templates [] exprs
      | other => [other]).map Item.unspanned = [Item.unspanned item] := by
  cases item with
  | topLevel exprs span =>
    obtain ⟨hSome, hNames⟩ : exprs ≠ [] ∧ ∀ e ∈ exprs, namesTemplate templates e = false := by
      simpa [Item.unexpanded] using hNone
    obtain ⟨first, rest, rfl⟩ := List.exists_cons_of_ne_nil hSome
    dsimp only
    rw [expandToplevel_none templates _ [] hNames]
    rfl
  | _ => rfl

theorem expandTemplates_unspanned {items : List Item} {prior : Dict String TemplateDef}
    (hPlain : ∀ item ∈ items, Item.plain item = true)
    (hNone : ∀ item ∈ items, Item.unexpanded prior item = true) :
    (expandTemplates ⟨items⟩ prior).items.map Item.unspanned = items.map Item.unspanned := by
  unfold expandTemplates
  dsimp only
  generalize hFold : List.foldl _ prior items = templates
  obtain rfl : prior = templates := by
    rw [← hFold]
    refine (foldl_fixed_of fun item hItem => ?_).symm
    have hKind := hPlain item hItem
    cases item with
    | template t => cases hKind
    | _ => rfl
  split
  · rfl
  · rw [List.map_flatMap, List.map_eq_flatMap]
    exact List.flatMap_congr fun item hItem => expandItem_unspanned (hNone item hItem)

theorem lowerQdupItems_unspanned (items : List Item) : ∀ n : Nat,
    lowerQdupItems (items.map Item.unspanned) n =
      ((lowerQdupItems items n).1.map Item.unspanned, (lowerQdupItems items n).2) := by
  induction items with
  | nil => exact fun _ => rfl
  | cons item items ih =>
    intro n
    cases item with
    | constant c =>
      rcases c with ⟨name, nameSpan, value, span, flavour⟩
      cases value with
      | _ => simp only [List.map_cons, lowerQdupItems, Item.unspanned, Item.lowerQdup, ih]
    | _ => simp only [List.map_cons, lowerQdupItems, Item.unspanned, Item.lowerQdup, ih]

theorem lowerQdupItems_plain {items : List Item} (hPlain : ∀ item ∈ items, Item.plain item = true) :
    ∀ n : Nat, ∀ item ∈ (lowerQdupItems items n).1, Item.plain item = true := by
  induction items with
  | nil => exact fun _ _ h => absurd h List.not_mem_nil
  | cons item items ih =>
    intro n
    have hKind := hPlain item List.mem_cons_self
    have hRest := ih fun i hi => hPlain i (List.mem_cons_of_mem _ hi)
    cases item with
    | topLevel exprs span =>
      simp only [lowerQdupItems, Item.lowerQdup]
      exact List.forall_mem_cons.mpr ⟨rfl, hRest _⟩
    | method m =>
      simp only [lowerQdupItems, Item.lowerQdup]
      exact List.forall_mem_cons.mpr ⟨rfl, hRest _⟩
    | rawFactor raw =>
      simp only [lowerQdupItems, Item.lowerQdup]
      exact List.forall_mem_cons.mpr ⟨rfl, hRest _⟩
    | _ => cases hKind

/-- Plain items with the same code behave the same in a pass that looks at no span of a run. -/
theorem flatMap_unspanned {α : Type} {f : Item → List α} (hf : ∀ item, f (Item.unspanned item) = f item)
    {items items' : List Item} (h : items.map Item.unspanned = items'.map Item.unspanned) :
    items.flatMap f = items'.flatMap f := by
  have hMap : ∀ xs : List Item, (xs.map Item.unspanned).flatMap f = xs.flatMap f := by
    intro xs
    rw [List.flatMap_map]
    exact List.flatMap_congr fun item _ => hf item
  rw [← hMap items, h, hMap items']

theorem unspanned_plain (item : Item) : Item.plain (Item.unspanned item) = Item.plain item := by
  cases item <;> rfl

theorem plain_of_unspanned {items items' : List Item}
    (h : items.map Item.unspanned = items'.map Item.unspanned)
    (hPlain : ∀ item ∈ items, Item.plain item = true) : ∀ item ∈ items', Item.plain item = true := by
  intro item hItem
  have hMem : Item.unspanned item ∈ items.map Item.unspanned := h ▸ List.mem_map_of_mem hItem
  obtain ⟨other, hOther, hEq⟩ := List.mem_map.mp hMem
  rw [← unspanned_plain, ← hEq, unspanned_plain]
  exact hPlain other hOther

theorem plain_cases {motive : Item → Prop} {item : Item} (hKind : Item.plain item = true)
    (topLevel : ∀ exprs span, motive (.topLevel exprs span)) (method : ∀ m, motive (.method m))
    (rawFactor : ∀ raw, motive (.rawFactor raw)) : motive item := by
  cases item with
  | topLevel exprs span => exact topLevel exprs span
  | method m => exact method m
  | rawFactor raw => exact rawFactor raw
  | _ => cases hKind

section Tables
variable {items : List Item} (hPlain : ∀ item ∈ items, Item.plain item = true)
include hPlain

theorem plain_flatMap {α : Type} {f : Item → List α} (hTop : ∀ exprs span, f (.topLevel exprs span) = [])
    (hMethod : ∀ m, f (.method m) = []) (hRaw : ∀ raw, f (.rawFactor raw) = []) :
    items.flatMap f = [] := by
  rw [List.flatMap_eq_nil_iff]
  exact fun item hItem =>
    plain_cases (motive := fun item => f item = []) (hPlain item hItem) hTop hMethod hRaw

theorem plain_filterMap {α : Type} {f : Item → Option α}
    (hTop : ∀ exprs span, f (.topLevel exprs span) = none) (hMethod : ∀ m, f (.method m) = none)
    (hRaw : ∀ raw, f (.rawFactor raw) = none) : items.filterMap f = [] := by
  rw [List.filterMap_eq_nil_iff]
  exact fun item hItem =>
    plain_cases (motive := fun item => f item = none) (hPlain item hItem) hTop hMethod hRaw

theorem plain_map {f : Item → Item}
    (hTop : ∀ exprs span, f (.topLevel exprs span) = .topLevel exprs span)
    (hMethod : ∀ m, f (.method m) = .method m) (hRaw : ∀ raw, f (.rawFactor raw) = .rawFactor raw) :
    items.map f = items := by
  conv_rhs => rw [← List.map_id items]
  exact List.map_congr_left fun item hItem =>
    plain_cases (motive := fun item => f item = item) (hPlain item hItem) hTop hMethod hRaw

theorem plain_foldl {β : Type} {f : β → Item → β} {b : β}
    (hTop : ∀ exprs span, f b (.topLevel exprs span) = b) (hMethod : ∀ m, f b (.method m) = b)
    (hRaw : ∀ raw, f b (.rawFactor raw) = b) : items.foldl f b = b :=
  foldl_fixed_of fun item hItem =>
    plain_cases (motive := fun item => f b item = b) (hPlain item hItem) hTop hMethod hRaw

theorem plain_needs (path : String) (span : Span) : Item.needs path span ∉ items := by
  intro hMem
  cases hPlain _ hMem

theorem plain_docs (host : Host) (source : String) : buildDocs host items source = [] := by
  have hDocs : items.filterMap (Item.doc host source) = [] :=
    plain_filterMap hPlain (fun _ _ => rfl) (fun _ => rfl) fun _ => rfl
  rw [buildDocs, hDocs]
  rfl

theorem plain_classSlots (slots : Dict String (List String)) :
    computeClassSlots ⟨items⟩ slots = slots :=
  plain_foldl hPlain (fun _ _ => rfl) (fun _ => rfl) fun _ => rfl

theorem plain_resolve (words values : Dict String Span) (slots : Dict String (List String)) :
    resolve ⟨items⟩ words values slots =
      (resolveBodies words values (items.flatMap Item.resolvedBodies) []).map
        fun targets => ⟨⟨items⟩, targets, []⟩ := by
  have hNames : items.flatMap (Item.introduced slots) = [] :=
    plain_flatMap hPlain (fun _ _ => rfl) (fun _ => rfl) fun _ => rfl
  have hValues : localValueNames items = [] :=
    plain_foldl hPlain (fun _ _ => rfl) (fun _ => rfl) fun _ => rfl
  simp only [resolve, hNames, hValues, register]
  show (resolveBodies words values (items.flatMap Item.resolvedBodies) [] >>= fun targets =>
    Except.ok (⟨⟨items⟩, targets, []⟩ : Resolved)) = _
  cases resolveBodies words values (items.flatMap Item.resolvedBodies) [] with
  | error e => rfl
  | ok targets => rfl

theorem plain_sema (targets : Dict Span Target) (slots : Dict String (List String))
    (effects : Dict String Effect) :
    semaOfResolved ⟨⟨items⟩, targets, []⟩ slots effects =
      ⟨⟨items⟩, targets, [], [], [], slots, effects, [], [], analyseEscape items, []⟩ := by
  have hLower : items.map (Item.lowerExit targets) = items :=
    plain_map hPlain (fun _ _ => rfl) (fun _ => rfl) fun _ => rfl
  have hDefinitions : definitions items = [] :=
    plain_filterMap hPlain (fun _ _ => rfl) (fun _ => rfl) fun _ => rfl
  have hClasses : classes items = [] :=
    plain_filterMap hPlain (fun _ _ => rfl) (fun _ => rfl) fun _ => rfl
  have hWords : items.filterMap Item.userWord = [] :=
    plain_filterMap hPlain (fun _ _ => rfl) (fun _ => rfl) fun _ => rfl
  have hTemplates : collectTemplates items = [] :=
    plain_foldl hPlain (fun _ _ => rfl) (fun _ => rfl) fun _ => rfl
  have hValues : collectValues items = [] :=
    plain_foldl hPlain (fun _ _ => rfl) (fun _ => rfl) fun _ => rfl
  have hSeeds : seedEffects items effects = effects :=
    plain_foldl hPlain (fun _ _ => rfl) (fun _ => rfl) fun _ => rfl
  simp only [semaOfResolved, hLower, inferWithPrior, hDefinitions, hSeeds, List.foldl_nil,
    collectUserWords, hWords, hClasses, hTemplates, hValues, seedClassSynthEffects]

theorem plain_prepare (synth : Nat) {prior : Dict String TemplateDef}
    (hNone : ∀ item ∈ items, Item.unexpanded prior item = true) :
    ∃ code, prepare ⟨items⟩ prior synth = ((⟨code⟩, []), (lowerQdupItems items synth).2) ∧
      code.map Item.unspanned = (lowerQdupItems items synth).1.map Item.unspanned ∧
      ∀ item ∈ code, Item.plain item = true := by
  let expanded := (expandTemplates ⟨items⟩ prior).items
  have hExpand : expanded.map Item.unspanned = items.map Item.unspanned :=
    expandTemplates_unspanned hPlain hNone
  have hExpanded := plain_of_unspanned hExpand.symm hPlain
  have hSame : ((lowerQdupItems expanded synth).1.map Item.unspanned,
      (lowerQdupItems expanded synth).2) =
      ((lowerQdupItems items synth).1.map Item.unspanned, (lowerQdupItems items synth).2) := by
    rw [← lowerQdupItems_unspanned, hExpand, lowerQdupItems_unspanned]
  obtain ⟨hCode, hSynth⟩ := Prod.mk.inj hSame
  have hLowered := lowerQdupItems_plain hExpanded synth
  have hRecurse : (lowerQdupItems expanded synth).1.map Item.lowerRecurse =
      (lowerQdupItems expanded synth).1 :=
    plain_map hLowered (fun _ _ => rfl) (fun _ => rfl) fun _ => rfl
  have hMissing : (lowerQdupItems expanded synth).1.filterMap Item.missingRecurseEffect = [] :=
    plain_filterMap hLowered (fun _ _ => rfl) (fun _ => rfl) fun _ => rfl
  refine ⟨(lowerQdupItems expanded synth).1, ?_, hCode, hLowered⟩
  rw [← hSynth]
  simp only [prepare, lowerQdup, lowerRecurse]
  show ((Program.mk ((lowerQdupItems expanded synth).1.map Item.lowerRecurse),
    (lowerQdupItems expanded synth).1.filterMap Item.missingRecurseEffect), _) = _
  rw [hRecurse, hMissing]

end Tables

/-! The model of a plain source, and its code. -/

theorem build_plain {items : List Item} (hPlain : ∀ item ∈ items, Item.plain item = true)
    (synth : Nat) (prior : PriorState)
    (hNone : ∀ item ∈ items, Item.unexpanded prior.templates item = true) :
    ∃ code, code.map Item.unspanned = (lowerQdupItems items synth).1.map Item.unspanned ∧
      (∀ item ∈ code, Item.plain item = true) ∧
      buildWithPriorState ⟨items⟩ prior synth =
        ((resolveBodies prior.userWords prior.values (code.flatMap Item.resolvedBodies) []).map
          fun targets => ⟨⟨code⟩, targets, [], [], [], prior.classes, prior.effects, [], [],
            analyseEscape code, []⟩, (lowerQdupItems items synth).2) := by
  obtain ⟨code, hPrepare, hCode, hKinds⟩ := plain_prepare hPlain synth hNone
  refine ⟨code, hCode, hKinds, ?_⟩
  simp only [buildWithPriorState, hPrepare, plain_classSlots hKinds, plain_resolve hKinds]
  cases resolveBodies prior.userWords prior.values (code.flatMap Item.resolvedBodies) [] with
  | error e => rfl
  | ok targets =>
    show (Except.ok (semaOfResolved ⟨⟨code⟩, targets, []⟩ prior.classes prior.effects), _) = _
    rw [plain_sema hKinds]
    rfl

theorem resolvedBodies_unspanned (item : Item) :
    Item.resolvedBodies (Item.unspanned item) = Item.resolvedBodies item := by
  cases item <;> rfl

theorem analyseEscape_unspanned {items items' : List Item}
    (h : items.map Item.unspanned = items'.map Item.unspanned)
    (hPlain : ∀ item ∈ items, Item.plain item = true) :
    analyseEscape items = analyseEscape items' := by
  have hBodies : items.flatMap Item.escapeBodies = items'.flatMap Item.escapeBodies :=
    flatMap_unspanned (fun item => by cases item <;> rfl) h
  unfold analyseEscape
  dsimp only
  rw [plain_filterMap hPlain (fun _ _ => rfl) (fun _ => rfl) fun _ => rfl,
    plain_filterMap (plain_of_unspanned h hPlain) (fun _ _ => rfl) (fun _ => rfl) fun _ => rfl,
    hBodies]

theorem resolveBodies_extends {words values words' values' : Dict String Span}
    (bodies : List (List String × List Expr)) :
    ∀ {out out' : Dict Span Target},
      (∀ b ∈ bodies, Extends ⟨words, values, b.1⟩ ⟨words', values', b.1⟩ (occurrences b.2)) →
      resolveBodies words values bodies out = .ok out' →
        resolveBodies words' values' bodies out = .ok out' := by
  induction bodies with
  | nil => exact fun _ h => h
  | cons b bodies ih =>
    intro out out' hExt h
    obtain ⟨mid, hFirst, hRest⟩ := ok_of_bind h
    simp only [resolveBodies, resolveExprs_extends b.2 (hExt b List.mem_cons_self) hFirst]
    exact ih (fun b' hb' => hExt b' (List.mem_cons_of_mem _ hb')) hRest

/-- What a body shows of the two models is the same. -/
def SameShown (r r' : Sema) (items : List Item) : Prop :=
  ∀ b ∈ items.flatMap Item.resolvedBodies, SameCode r r' (seen b.2)

section Emit
variable {r r' : Sema}

theorem execution_same {item : Item} (hKind : Item.plain item = true)
    (h : SameShown r r' [item]) : item.execution r = item.execution r' := by
  cases item with
  | topLevel exprs span =>
    have hBody : SameCode r r' (seen exprs) := h ([], exprs) (by simp [Item.resolvedBodies])
    rw [Item.execution, Item.execution, emitExprs_same exprs hBody]
  | method m => rfl
  | rawFactor raw => rfl
  | _ => cases hKind

theorem emitMethods_same {items : List Item} (hPlain : ∀ item ∈ items, Item.plain item = true)
    (aux : List String) : SameShown r r' items → ∀ helper : Nat,
      emitMethods r aux items helper = emitMethods r' aux items helper := by
  induction items with
  | nil => exact fun _ _ => rfl
  | cons item items ih =>
    intro h helper
    have hRest := ih (fun i hi => hPlain i (List.mem_cons_of_mem _ hi)) fun b hb =>
      h b (by rw [List.flatMap_cons]; exact List.mem_append_right _ hb)
    cases item with
    | method m =>
      have hBody : SameCode r r' (seen m.body) :=
        h (localNames m.locals ++ collectBodyLocals m.body, m.body) (by simp [Item.resolvedBodies])
      simp only [emitMethods, emitMethod, emitBody_same hBody, hRest]
    | topLevel exprs span => exact hRest helper
    | rawFactor raw => exact hRest helper
    | _ => cases hPlain _ List.mem_cons_self

theorem emitMethods_unspanned (aux : List String) (items : List Item) : ∀ helper : Nat,
    emitMethods r aux (items.map Item.unspanned) helper = emitMethods r aux items helper := by
  induction items with
  | nil => exact fun _ => rfl
  | cons item items ih =>
    intro helper
    cases item with
    | method m => 
      simp only [List.map_cons, Item.unspanned, emitMethods, ih]
    | _ => exact ih helper

theorem any_unspanned {f : Item → Bool} (hf : ∀ item, f (Item.unspanned item) = f item)
    {items items' : List Item} (h : items.map Item.unspanned = items'.map Item.unspanned) :
    items.any f = items'.any f := by
  have hMap : ∀ xs : List Item, (xs.map Item.unspanned).any f = xs.any f := by
    intro xs
    rw [List.any_map]
    exact congrArg (xs.any ·) (funext hf)
  rw [← hMap items, h, hMap items']

theorem vocabsNeeded_same (hItems : r.program.items.map Item.unspanned =
      r'.program.items.map Item.unspanned) (hTargets : r.wordTargets = r'.wordTargets) :
    vocabsNeeded r = vocabsNeeded r' := by
  unfold vocabsNeeded
  rw [any_unspanned (fun item => by cases item <;> rfl) hItems,
    any_unspanned (f := Item.isMethodSystem) (fun item => by cases item <;> rfl) hItems,
    any_unspanned (f := Item.needsLocalsVocab) (fun item => by cases item <;> rfl) hItems, hTargets]

/-- Models of the same plain code have the same source. -/
theorem emit_same (hItems : r.program.items.map Item.unspanned = r'.program.items.map Item.unspanned)
    (hPlain : ∀ item ∈ r'.program.items, Item.plain item = true)
    (hTargets : r.wordTargets = r'.wordTargets) (hShown : SameShown r r' r'.program.items)
    (flushAtEnd : Bool) (helper : Nat) : emit r flushAtEnd helper = emit r' flushAtEnd helper := by
  have hAux : auxGenerics r.program.items = auxGenerics r'.program.items := by
    unfold auxGenerics
    rw [List.filterMap_eq_flatMap_toList, List.filterMap_eq_flatMap_toList]
    exact flatMap_unspanned (fun item => by cases item <;> rfl) hItems
  have hMethods : emitMethods r (auxGenerics r'.program.items) r.program.items helper =
      emitMethods r' (auxGenerics r'.program.items) r'.program.items helper := by
    rw [← emitMethods_unspanned, hItems, emitMethods_unspanned]
    exact emitMethods_same hPlain _ hShown helper
  have hDeclared : r.program.items.flatMap (Item.declaration r (auxGenerics r'.program.items)) =
      r'.program.items.flatMap (Item.declaration r' (auxGenerics r'.program.items)) := by
    rw [flatMap_unspanned (fun item => by cases item <;> rfl) hItems]
    exact List.flatMap_congr fun item hItem => plain_cases (motive := fun item =>
      Item.declaration r _ item = Item.declaration r' _ item) (hPlain item hItem)
      (fun _ _ => rfl) (fun _ => rfl) fun _ => rfl
  have hColon : r.program.items.flatMap (Item.colonWord r) =
      r'.program.items.flatMap (Item.colonWord r') := by
    rw [flatMap_unspanned (fun item => by cases item <;> rfl) hItems]
    exact List.flatMap_congr fun item hItem => plain_cases (motive := fun item =>
      Item.colonWord r item = Item.colonWord r' item) (hPlain item hItem)
      (fun _ _ => rfl) (fun _ => rfl) fun _ => rfl
  have hRun : r.program.items.flatMap (Item.execution r) =
      r'.program.items.flatMap (Item.execution r') := by
    rw [flatMap_unspanned (fun item => by cases item <;> rfl) hItems]
    refine List.flatMap_congr fun item hItem => execution_same (hPlain item hItem) fun b hb => ?_
    rw [List.flatMap_singleton] at hb
    exact hShown b (List.mem_flatMap.mpr ⟨item, hItem, hb⟩)
  simp only [emit, hAux, hMethods, hDeclared, hColon, hRun, vocabsNeeded_same hItems hTargets]

end Emit

end Plain

/-! The compile. -/

/-- The bodies of a source, each with its locals, as they are resolved when the counter is at `synth`. -/
def codeOf (items : List Item) (synth : Nat) : List (List String × List Expr) :=
  (lowerQdupItems items synth).1.flatMap Item.resolvedBodies

/-- The items of a source give the session no name, and neither their words nor their `SEE` reports
ask for a name of the session. -/
structure Apart (ctx : CompileContext) (synth : Nat) (items : List Item) : Prop where
  plain : ∀ item ∈ items, Item.plain item = true
  templates : ∀ item ∈ items, Item.unexpanded ctx.templates item = true
  words : ∀ b ∈ codeOf items synth, ∀ o ∈ occurrences b.2, lower o.1 ∉ b.1 →
    ctx.userWords.lookup (lower o.1) = none
  docs : ∀ b ∈ codeOf items synth, ∀ n ∈ seen b.2, ctx.docs.lookup n = none

instance (ctx : CompileContext) (synth : Nat) (items : List Item) :
    Decidable (Apart ctx synth items) :=
  decidable_of_iff
    ((∀ item ∈ items, Item.plain item = true) ∧
      (∀ item ∈ items, Item.unexpanded ctx.templates item = true) ∧
      (∀ b ∈ codeOf items synth, ∀ o ∈ occurrences b.2, lower o.1 ∉ b.1 →
        ctx.userWords.lookup (lower o.1) = none) ∧
      ∀ b ∈ codeOf items synth, ∀ n ∈ seen b.2, ctx.docs.lookup n = none)
    ⟨fun h => ⟨h.1, h.2.1, h.2.2.1, h.2.2.2⟩, fun h => ⟨h.plain, h.templates, h.words, h.docs⟩⟩

/-- The tables of a context have one entry for a name. -/
structure Keyed (ctx : CompileContext) : Prop where
  userWords : Dict.Distinct ctx.userWords
  userEffects : Dict.Distinct ctx.userEffects
  templates : Dict.Distinct ctx.templates
  values : Dict.Distinct ctx.values
  classes : Dict.Distinct ctx.classes
  docs : Dict.Distinct ctx.docs

theorem keyed_new : Keyed .new :=
  ⟨List.nodup_nil, List.nodup_nil, List.nodup_nil, List.nodup_nil, List.nodup_nil, List.nodup_nil⟩

section Compile
variable (host : Host) (fs : FileSystem)

theorem keyed_compile {ctx : CompileContext} (h : Keyed ctx) (source : String)
    (counters : Counters) :
    Keyed (compileInContextWithDiagnostics host fs source ctx counters).context := by
  unfold compileInContextWithDiagnostics
  dsimp only
  split
  · exact ⟨h.userWords, h.userEffects, h.templates, h.values, h.classes, h.docs⟩
  · rename_i sema hSema
    obtain ⟨own, items, docs, built, synth', -, -, -, rfl⟩ := analyse_ok host fs hSema
    exact ⟨h.userWords.merge _, h.userEffects.merge _, h.templates.merge _, h.values.merge _,
      h.classes.merge _, h.docs.merge _⟩

/-- The model of plain code in a context. -/
def plainModel (ctx : CompileContext) (code : List Item) (targets : Dict Span Target) : Sema :=
  Sema.forSession ⟨⟨code⟩, targets, [], [], [], ctx.classes, ctx.userEffects, [], [],
    analyseEscape code, []⟩ ctx.docs

theorem update_plain {ctx : CompileContext} (h : Keyed ctx) (code : List Item)
    (targets : Dict Span Target) : ctx.update (plainModel ctx code targets) = ctx := by
  have hEffects : Dict.merge ctx.userEffects ctx.userEffects = ctx.userEffects :=
    Dict.merge_self h.userEffects
  have hClasses : Dict.merge ctx.classes ctx.classes = ctx.classes := Dict.merge_self h.classes
  simp only [CompileContext.update, plainModel, Sema.forSession, List.map_nil, hEffects, hClasses]
  rfl

/-- What a plain source compiles to, by the outcome of its resolution. -/
theorem compile_plain {source : String} {items : List Item}
    (hItems : compileItems host source = .ok items) (hPlain : ∀ item ∈ items, Item.plain item = true)
    (ctx : CompileContext) (counters : Counters)
    (hNone : ∀ item ∈ items, Item.unexpanded ctx.templates item = true) :
    ∃ code, code.map Item.unspanned = (lowerQdupItems items counters.synth).1.map Item.unspanned ∧
      (∀ item ∈ code, Item.plain item = true) ∧
      compileInContextWithDiagnostics host fs source ctx counters =
        match resolveBodies ctx.userWords ctx.values (code.flatMap Item.resolvedBodies) [] with
        | .error e =>
          ⟨.error e.display, ctx, ⟨(lowerQdupItems items counters.synth).2, counters.helper⟩⟩
        | .ok targets =>
          ⟨.ok ((emit (plainModel ctx code targets) true counters.helper).1, []),
            ctx.update (plainModel ctx code targets),
            ⟨(lowerQdupItems items counters.synth).2,
              (emit (plainModel ctx code targets) true counters.helper).2⟩⟩ := by
  obtain ⟨code, hCode, hKinds, hBuild⟩ := build_plain hPlain counters.synth ctx.prior hNone
  refine ⟨code, hCode, hKinds, ?_⟩
  have hDocs := plain_docs hPlain host source
  have hNeeds := expandNeeds_self host fs (plain_needs hPlain) none ctx.included []
  cases hBodies : resolveBodies ctx.userWords ctx.values (code.flatMap Item.resolvedBodies) [] with
  | error e =>
    have hPrior : resolveBodies ctx.prior.userWords ctx.prior.values (code.flatMap Item.resolvedBodies) [] =
        .error e := hBodies
    have hAnalysed : analyse host fs source ctx counters.synth =
        ⟨.error e.display, ctx.included, (lowerQdupItems items counters.synth).2⟩ := by
      simp only [analyse, hItems, hDocs, hNeeds, hBuild, hPrior]
      rfl
    simp only [compileInContextWithDiagnostics, hAnalysed]
  | ok targets =>
    have hPrior : resolveBodies ctx.prior.userWords ctx.prior.values (code.flatMap Item.resolvedBodies) [] =
        .ok targets := hBodies
    have hAnalysed : analyse host fs source ctx counters.synth =
        ⟨.ok (plainModel ctx code targets), ctx.included, (lowerQdupItems items counters.synth).2⟩ := by
      simp only [analyse, hItems, hDocs, hNeeds, hBuild, hPrior]
      rfl
    simp only [compileInContextWithDiagnostics, hAnalysed]
    rfl

/-- A word that is no word of the session is the same in the session and in a new one. -/
theorem target_apart {words values : Dict String Span} {locals : List String} {name : String}
    (values' : Dict String Span)
    (h : lower name ∉ locals → words.lookup (lower name) = none) :
    Scope.target ⟨words, values', locals⟩ name = Scope.target ⟨[], values, locals⟩ name := by
  by_cases hLocal : lower name ∈ locals
  · have hContains : locals.contains (lower name) = true := by simpa using hLocal
    simp only [Scope.target, hContains, if_true]
  · have hContains : locals.contains (lower name) = false := by simpa using hLocal
    have hWord : Dict.contains words (lower name) = false := by
      rw [Dict.contains, h hLocal]
      rfl
    have hNothing : Dict.contains ([] : Dict String Span) (lower name) = false := rfl
    simp only [Scope.target, hContains, hWord, hNothing]

theorem resolve_apart {words values : Dict String Span} {bodies : List (List String × List Expr)}
    {targets : Dict Span Target} (h : resolveBodies [] [] bodies [] = .ok targets)
    (hWords : ∀ b ∈ bodies, ∀ o ∈ occurrences b.2, lower o.1 ∉ b.1 →
      words.lookup (lower o.1) = none) : resolveBodies words values bodies [] = .ok targets := by
  apply resolveBodies_extends bodies _ h
  intro b hb
  exact ⟨fun o ho => target_apart values (hWords b hb o ho), fun n hn => nomatch hn⟩

theorem emit_apart {ctx : CompileContext} {here own : List Item} (targets : Dict Span Target)
    (hSame : here.map Item.unspanned = own.map Item.unspanned)
    (hPlain : ∀ item ∈ own, Item.plain item = true)
    (hDocs : ∀ b ∈ own.flatMap Item.resolvedBodies, ∀ n ∈ seen b.2, ctx.docs.lookup n = none)
    (helper : Nat) : emit (plainModel ctx here targets) true helper =
      emit (plainModel .new own targets) true helper := by
  have hEscape : analyseEscape here = analyseEscape own :=
    (analyseEscape_unspanned hSame.symm hPlain).symm
  let r := plainModel ctx here targets
  let r' := plainModel .new own targets
  have hItems : r.program.items.map Item.unspanned = r'.program.items.map Item.unspanned := hSame
  have hEscapes : r.escape = r'.escape := by
    show (analyseEscape here).map _ = (analyseEscape own).map _
    rw [hEscape]
  have hShown : SameShown r r' own := by
    intro b hb
    have hDocs' : ∀ n ∈ seen b.2, r.docs.lookup n = r'.docs.lookup n := fun n hn => hDocs b hb n hn
    exact ⟨rfl, hEscapes, hDocs'⟩
  exact emit_same (r := r) hItems hPlain rfl hShown true helper

/-- A source apart from the session that compiles on its own compiles to the same code in the session,
and leaves the context as it was. -/
theorem compile_apart {ctx : CompileContext} (hCtx : Keyed ctx) {source : String}
    {items : List Item} (hItems : compileItems host source = .ok items) {counters : Counters}
    (h : Apart ctx counters.synth items) {code : Ir × List EffectError}
    (hOwn : (compileInContextWithDiagnostics host fs source .new counters).result = .ok code) :
    compileInContextWithDiagnostics host fs source ctx counters =
      ⟨.ok code, ctx,
        (compileInContextWithDiagnostics host fs source .new counters).counters⟩ := by
  have hFresh : ∀ item ∈ items, Item.unexpanded CompileContext.new.templates item = true := by
    intro item hItem
    have hItemNone := h.templates item hItem
    cases item with
    | topLevel exprs span =>
      have hSome := (Bool.and_eq_true_iff.mp hItemNone).1
      have hNothing : ∀ e, namesTemplate [] e = false := fun e => by cases e <;> rfl
      simp [Item.unexpanded, CompileContext.new, hNothing, hSome]
    | _ => rfl
  obtain ⟨own, hOwnCode, hOwnPlain, hOwnEq⟩ :=
    compile_plain host fs hItems h.plain .new counters hFresh
  obtain ⟨here, hHereCode, -, hHereEq⟩ := compile_plain host fs hItems h.plain ctx counters h.templates
  have hSame : here.map Item.unspanned = own.map Item.unspanned := hHereCode.trans hOwnCode.symm
  have hBodies : here.flatMap Item.resolvedBodies = own.flatMap Item.resolvedBodies :=
    flatMap_unspanned resolvedBodies_unspanned hSame
  have hCodeOf : own.flatMap Item.resolvedBodies = codeOf items counters.synth :=
    flatMap_unspanned resolvedBodies_unspanned hOwnCode
  rw [hBodies] at hHereEq
  cases hTargets : resolveBodies [] [] (own.flatMap Item.resolvedBodies) [] with
  | error e =>
    have hError : resolveBodies CompileContext.new.userWords CompileContext.new.values
        (own.flatMap Item.resolvedBodies) [] = .error e := hTargets
    rw [hOwnEq, hError] at hOwn
    cases hOwn
  | ok targets =>
    have hHere : resolveBodies ctx.userWords ctx.values (own.flatMap Item.resolvedBodies) [] =
        .ok targets := resolve_apart hTargets (hCodeOf ▸ h.words)
    have hEmit := emit_apart targets hSame hOwnPlain (hCodeOf ▸ h.docs) counters.helper
    have hOk : resolveBodies CompileContext.new.userWords CompileContext.new.values
        (own.flatMap Item.resolvedBodies) [] = .ok targets := hTargets
    rw [hOwnEq, hOk] at hOwn
    rw [hHereEq, hOwnEq, hHere, hOk]
    dsimp only
    rw [hEmit, update_plain hCtx, ← Except.ok.inj hOwn]

end Compile

end FactorForth.Correctness
