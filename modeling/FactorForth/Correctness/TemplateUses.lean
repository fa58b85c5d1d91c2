import FactorForth.Correctness.DoesBodies
import FactorForth.Correctness.QdupMeaning
import Mathlib.Algebra.Order.BigOperators.Group.List
import Mathlib.Algebra.Order.Group.Nat

/-! Uses of templates. A run `n template name` of load-time code is one instance, wherever it stands among
other code; the expressions that a CONSTANT or a VALUE captures are not looked at. -/

namespace FactorForth.Correctness
open FactorForth.Library FactorForth.Compiler

/-- A run `n template name`, with the template that its second word names. -/
structure TemplateUse where
  count : Int
  countSpan : Span
  template : TemplateDef
  name : String
  nameSpan : Span

/-- The one instance that a use is to become. -/
def TemplateUse.made (u : TemplateUse) : TemplateInstanceDef :=
  ⟨u.name, u.nameSpan, u.template.name, computeAllocBytes u.template (asU32 u.count),
    u.template.doesBody, ⟨u.countSpan.start, u.nameSpan.stop⟩⟩

section
variable (templates : Dict String TemplateDef)

/-- The use at the front of some code. -/
def useAt : List Expr → Option TemplateUse
  | .lit (.int v vs) :: .wordRef k _ :: .wordRef n ns :: _ =>
    if 0 ≤ v then (templates.lookup (lower k)).map fun t => ⟨v, vs, t, n, ns⟩ else none
  | _ => none

/-- Code in pieces, the first `skip` expressions left out: a use is one piece, and so is any other
expression. -/
def piecesFrom : Nat → List Expr → List (Expr ⊕ TemplateUse)
  | _, [] => []
  | skip + 1, _ :: rest => piecesFrom skip rest
  | 0, e :: rest =>
    match useAt templates (e :: rest) with
    | some u => .inr u :: piecesFrom 2 rest
    | none => .inl e :: piecesFrom 0 rest

def pieces (es : List Expr) : List (Expr ⊕ TemplateUse) := piecesFrom templates 0 es

/-- The items of some pieces, behind the run `current`. -/
def layout : List Expr → List (Expr ⊕ TemplateUse) → List Item
  | current, [] => flushCurrent current
  | current, .inl e :: ps => layout (current ++ [e]) ps
  | current, .inr u :: ps => flushCurrent current ++ .templateInstance u.made :: layout [] ps

end

section
variable {templates : Dict String TemplateDef}

theorem pieces_cons {e : Expr} {rest : List Expr} (h : useAt templates (e :: rest) = none) :
    pieces templates (e :: rest) = .inl e :: pieces templates rest := by
  rw [pieces, piecesFrom, h]
  rfl

theorem useAt_some {es : List Expr} {u : TemplateUse} (h : useAt templates es = some u) :
    ∃ k ks rest, 0 ≤ u.count ∧ templates.lookup (lower k) = some u.template ∧
      es = .lit (.int u.count u.countSpan) :: .wordRef k ks :: .wordRef u.name u.nameSpan :: rest := by
  unfold useAt at h
  split at h
  · rename_i v vs k ks n ns rest
    split at h
    · rename_i hv
      obtain ⟨t, hk, rfl⟩ := Option.map_eq_some_iff.mp h
      exact ⟨k, ks, rest, hv, hk, rfl⟩
    · cases h
  · cases h

theorem useAt_run {v : Int} (hv : 0 ≤ v) {k : String} {t : TemplateDef}
    (hk : templates.lookup (lower k) = some t) (vs ks : Span) (n : String) (ns : Span)
    (rest : List Expr) :
    useAt templates (.lit (.int v vs) :: .wordRef k ks :: .wordRef n ns :: rest) =
      some ⟨v, vs, t, n, ns⟩ := by
  rw [useAt, if_pos hv, hk]
  rfl

/-- A word is at the front of no use. -/
theorem useAt_wordRef (n : String) (ns : Span) (rest : List Expr) :
    useAt templates (.wordRef n ns :: rest) = none := rfl

theorem useAt_append_lit {es : List Expr} (hNe : es ≠ []) (l : Literal) (rest : List Expr) :
    useAt templates (es ++ .lit l :: rest) = useAt templates es := by
  match es, hNe with
  | [e], _ =>
    unfold useAt
    split <;> simp_all
  | [e, e'], _ =>
    unfold useAt
    split <;> simp_all
  | e :: e' :: e'' :: es, _ =>
    -- what is behind three expressions is not looked at
    cases e with
    | lit l' =>
      cases l' with
      | int v vs =>
        cases e' with
        | wordRef k ks => cases e'' <;> rfl
        | _ => rfl
      | _ => rfl
    | _ => rfl

/-- Uses do not overlap: what stands in front of a literal is read by itself. -/
theorem pieces_append_lit (l : Literal) (rest : List Expr) (n : Nat) : ∀ pre : List Expr,
    pre.length ≤ n → pieces templates (pre ++ .lit l :: rest) =
      pieces templates pre ++ pieces templates (.lit l :: rest) := by
  induction n with
  | zero =>
    intro pre hn
    rw [List.length_eq_zero_iff.mp (Nat.le_zero.mp hn)]
    rfl
  | succ n ih =>
    intro pre hn
    cases pre with
    | nil => rfl
    | cons e pre =>
      have hFront := @useAt_append_lit templates _ (List.cons_ne_nil e pre) l rest
      cases hUse : useAt templates (e :: pre) with
      | none =>
        rw [hUse, List.cons_append] at hFront
        rw [pieces_cons hUse, List.cons_append, pieces_cons hFront, List.cons_append,
          ih pre (Nat.le_of_succ_le_succ hn)]
      | some u =>
        rw [hUse] at hFront
        obtain ⟨k, ks, behind, -, -, hShape⟩ := useAt_some hUse
        obtain ⟨rfl, rfl⟩ := List.cons.inj hShape
        have hBehind : behind.length ≤ n := by
          simp only [List.length_cons] at hn
          omega
        have hWhole : pieces templates (.lit (.int u.count u.countSpan) :: .wordRef k ks ::
            .wordRef u.name u.nameSpan :: behind ++ .lit l :: rest) =
            .inr u :: pieces templates (behind ++ .lit l :: rest) := by
          rw [pieces, List.cons_append, piecesFrom]
          rw [List.cons_append] at hFront
          rw [hFront]
          rfl
        have hOwn : pieces templates (.lit (.int u.count u.countSpan) :: .wordRef k ks ::
            .wordRef u.name u.nameSpan :: behind) = .inr u :: pieces templates behind := by
          rw [pieces, piecesFrom, hUse]
          rfl
        rw [hWhole, hOwn, ih behind hBehind]
        rfl

/-- A run is one use, wherever it stands. -/
theorem pieces_run {v : Int} (hv : 0 ≤ v) {k : String} {t : TemplateDef}
    (hk : templates.lookup (lower k) = some t) (vs ks : Span) (n : String) (ns : Span)
    (pre rest : List Expr) :
    pieces templates (pre ++ .lit (.int v vs) :: .wordRef k ks :: .wordRef n ns :: rest) =
      pieces templates pre ++ .inr ⟨v, vs, t, n, ns⟩ :: pieces templates rest := by
  rw [pieces_append_lit _ _ _ pre (Nat.le_refl _)]
  congr 1
  rw [pieces, piecesFrom, useAt_run hv hk]
  rfl

/-! The walk over a run makes exactly the instances. -/

theorem countLit_some {e : Expr} {count : Nat} (h : countLit (some e) = some count) :
    ∃ v vs, 0 ≤ v ∧ e = .lit (.int v vs) ∧ count = asU32 v := by
  unfold countLit at h
  split at h
  · rename_i v vs hEq
    split at h
    · rename_i hv
      exact ⟨v, vs, hv, Option.some.inj hEq, (Option.some.inj h).symm⟩
    · cases h
  · cases h

/-- A literal in front of a word makes a use with what is behind only where the word is a template. -/
theorem useAt_lit_code {v : Int} {vs : Span} {e : Expr} {rest : List Expr}
    (h : ∀ k ks n ns more, e :: rest = .wordRef k ks :: .wordRef n ns :: more → 0 ≤ v →
      templates.lookup (lower k) = none) :
    useAt templates (.lit (.int v vs) :: e :: rest) = none := by
  cases hUse : useAt templates (.lit (.int v vs) :: e :: rest) with
  | none => rfl
  | some u =>
    obtain ⟨k, ks, more, hv, hk, hShape⟩ := useAt_some hUse
    obtain ⟨hLit, hRest⟩ := List.cons.inj hShape
    obtain ⟨rfl, rfl⟩ := Literal.int.inj (Expr.lit.inj hLit)
    rw [h k ks _ _ more hRest hv] at hk
    cases hk

theorem useAt_not_lit {e : Expr} {rest : List Expr} (h : countLit (some e) = none) :
    useAt templates (e :: rest) = none := by
  cases hUse : useAt templates (e :: rest) with
  | none => rfl
  | some u =>
    obtain ⟨k, ks, more, hv, -, hShape⟩ := useAt_some hUse
    obtain ⟨rfl, -⟩ := List.cons.inj hShape
    simp [countLit, hv] at h

/-- The walk lays the pieces out. A count at the end of the current run still belongs to what is behind
it. -/
theorem expandToplevel_layout (current es : List Expr) :
    (countLit current.getLast? = none →
      expandToplevel templates current es = layout current (pieces templates es)) ∧
    (∀ c v vs, 0 ≤ v → current = c ++ [.lit (.int v vs)] →
      expandToplevel templates current es =
        layout c (pieces templates (.lit (.int v vs) :: es))) := by
  fun_induction expandToplevel templates current es with
  | case1 current => exact ⟨fun _ => rfl, fun c v vs _ hEq => by rw [hEq]; rfl⟩
  | case2 current e =>
    have hOne : useAt templates [e] = none := by
      cases hUse : useAt templates [e] with
      | none => rfl
      | some u =>
        obtain ⟨k, ks, more, -, -, hShape⟩ := useAt_some hUse
        cases (List.cons.inj hShape).2
    refine ⟨fun _ => ?_, fun c v vs _ hEq => ?_⟩
    · rw [pieces_cons hOne]
      rfl
    · have hTwo : useAt templates [.lit (.int v vs), e] = none :=
        useAt_lit_code fun k ks n ns more hShape => by cases (List.cons.inj hShape).2
      rw [pieces_cons hTwo, pieces_cons hOne, hEq]
      rfl
  | case3 current rest name nameSpan newname newnameSpan count hCount tmpl hTmpl ih =>
    refine ⟨fun hNone => (by rw [hNone] at hCount; cases hCount), fun c v vs hv hEq => ?_⟩
    subst hEq
    rw [List.getLast?_concat] at hCount
    have hCountEq : count = asU32 v := by
      simpa [countLit, hv] using hCount.symm
    have hUse : useAt templates (.lit (.int v vs) :: .wordRef name nameSpan ::
        .wordRef newname newnameSpan :: rest) = some ⟨v, vs, tmpl, newname, newnameSpan⟩ :=
      useAt_run hv hTmpl vs nameSpan newname newnameSpan rest
    rw [pieces, piecesFrom, hUse, List.getLast?_concat, List.dropLast_concat, ih.1 rfl, hCountEq]
    rfl
  | case4 current rest name nameSpan newname newnameSpan count hCount hTmpl ih =>
    refine ⟨fun hNone => (by rw [hNone] at hCount; cases hCount), fun c v vs hv hEq => ?_⟩
    have hCode : useAt templates (.lit (.int v vs) :: .wordRef name nameSpan ::
        .wordRef newname newnameSpan :: rest) = none := by
      apply useAt_lit_code
      rintro k ks n ns more hShape -
      obtain ⟨rfl, -⟩ := Expr.wordRef.inj (List.cons.inj hShape).1
      exact hTmpl
    rw [pieces_cons hCode, pieces_cons (useAt_wordRef name nameSpan _), ih.1, hEq]
    · rfl
    · rw [List.getLast?_concat]
      rfl
  | case5 current e next rest hOther ih =>
    -- the next expression is a count itself, or it joins the run
    have hStep : expandToplevel templates (current ++ [e]) (next :: rest) =
        layout current (pieces templates (e :: next :: rest)) := by
      cases hLit : countLit (some e) with
      | some count =>
        obtain ⟨v, vs, hv, rfl, -⟩ := countLit_some hLit
        exact ih.2 current v vs hv rfl
      | none =>
        rw [pieces_cons (useAt_not_lit hLit), ih.1]
        · rfl
        · rw [List.getLast?_concat]
          exact hLit
    refine ⟨fun _ => hStep, fun c v vs hv hEq => ?_⟩
    have hCode : useAt templates (.lit (.int v vs) :: e :: next :: rest) = none := by
      apply useAt_lit_code
      rintro k ks n ns more hShape -
      obtain ⟨rfl, hRest⟩ := List.cons.inj hShape
      obtain ⟨rfl, -⟩ := List.cons.inj hRest
      exfalso
      apply hOther k ks n ns (asU32 v) rfl rfl
      rw [hEq, List.getLast?_concat]
      simp [countLit, hv]
    rw [hStep, pieces_cons hCode, hEq]
    rfl

/-- Code without a run is one expression after the other. -/
theorem pieces_plain {es : List Expr}
    (h : ∀ pre post, es = pre ++ post → useAt templates post = none) :
    pieces templates es = es.map .inl := by
  induction es with
  | nil => rfl
  | cons e es ih =>
    rw [pieces_cons (h [] _ rfl), ih, List.map_cons]
    intro pre post hEq
    exact h (e :: pre) post (by rw [hEq, List.cons_append])

theorem countP_inl {α β : Type} (xs : List α) :
    (xs.map (Sum.inl : α → α ⊕ β)).countP Sum.isRight = 0 := by
  apply List.countP_eq_zero.mpr
  intro p hp
  obtain ⟨x, -, rfl⟩ := List.mem_map.mp hp
  exact Bool.false_ne_true

theorem pieces_count_iff {es : List Expr} : (pieces templates es).countP Sum.isRight = 0 ↔
    ∀ pre post, es = pre ++ post → useAt templates post = none := by
  constructor
  · rintro hLeft pre post rfl
    cases hUse : useAt templates post with
    | none => rfl
    | some u =>
      obtain ⟨k, ks, rest, hv, hk, rfl⟩ := useAt_some hUse
      rw [pieces_run hv hk, List.countP_append, List.countP_cons] at hLeft
      simp at hLeft
  · intro hNone
    rw [pieces_plain hNone, countP_inl]

end

/-! The load-time code of a program. -/

/-- The code of an item that is run when it is loaded, or stands for such code. -/
def Item.loadTime : Item → List Expr
  | .topLevel exprs _ => exprs
  | .constant c => match c.value with
    | .computed exprs => exprs
    | _ => []
  | .value v => v.initial
  | _ => []

/-- The part of it that a defining word has taken. -/
def Item.captured : Item → List Expr
  | .topLevel _ _ => []
  | item => Item.loadTime item

/-- What of the load-time code is in an item behind the expansion. -/
def Item.loadPieces : Item → List (Expr ⊕ TemplateInstanceDef)
  | .templateInstance ti => [.inr ti]
  | item => (Item.loadTime item).map .inl

/-- The pieces that the load-time code of an item is to become. -/
def Item.duePieces (templates : Dict String TemplateDef) (item : Item) :
    List (Expr ⊕ TemplateInstanceDef) :=
  (pieces templates (Item.loadTime item)).map (Sum.map id TemplateUse.made)

def templatesOf (items : List Item) (prior : Dict String TemplateDef) : Dict String TemplateDef :=
  (items.filterMap Item.template?).foldl insertTemplate prior

section
variable {templates : Dict String TemplateDef}

theorem flushCurrent_pieces (current : List Expr) :
    (flushCurrent current).flatMap Item.loadPieces = current.map .inl := by
  cases current with
  | nil => rfl
  | cons e es => exact List.append_nil _

theorem layout_pieces (current : List Expr) (ps : List (Expr ⊕ TemplateUse)) :
    (layout current ps).flatMap Item.loadPieces =
      current.map .inl ++ ps.map (Sum.map id TemplateUse.made) := by
  induction ps generalizing current with
  | nil =>
    rw [layout, flushCurrent_pieces, List.map_nil, List.append_nil]
  | cons p ps ih =>
    cases p with
    | inl e =>
      rw [layout, ih, List.map_append, List.append_assoc]
      rfl
    | inr u =>
      rw [layout, List.flatMap_append, flushCurrent_pieces, List.flatMap_cons, ih]
      rfl

theorem useAt_nil (es : List Expr) : useAt [] es = none := by
  cases hUse : useAt [] es with
  | none => rfl
  | some u =>
    obtain ⟨k, ks, rest, -, hk, -⟩ := useAt_some hUse
    cases hk

/-- The pieces of one item behind the expansion. -/
def Item.madePieces (templates : Dict String TemplateDef) (item : Item) :
    List (Expr ⊕ TemplateInstanceDef) :=
  match item with
  | .topLevel exprs span => Item.duePieces templates (.topLevel exprs span)
  | item => Item.loadPieces item

theorem expanded_pieces (items : List Item) (prior : Dict String TemplateDef) :
    (expandTemplates ⟨items⟩ prior).items.flatMap Item.loadPieces =
      items.flatMap (Item.madePieces (templatesOf items prior)) := by
  rw [expandTemplates_eq]
  split
  · rename_i hEmpty
    apply List.flatMap_congr
    intro item _
    have hNil : templatesOf items prior = [] := List.isEmpty_iff.mp hEmpty
    cases item with
    | topLevel exprs span =>
      show exprs.map Sum.inl = (pieces (templatesOf items prior) exprs).map _
      rw [hNil, pieces_plain fun _ _ _ => useAt_nil _, List.map_map]
      rfl
    | _ => rfl
  · rw [List.flatMap_assoc]
    apply List.flatMap_congr
    intro item _
    cases item with
    | topLevel exprs span =>
      show (expandToplevel (templatesOf items prior) [] exprs).flatMap _ = _
      rw [(expandToplevel_layout [] exprs).1 rfl, layout_pieces]
      rfl
    | _ => exact List.append_nil _

/-- Where some parts are at most as many as they should be and in all they are as many, each is. -/
theorem counts_eq {α : Type} {f g : α → Nat} {xs : List α} (hLe : ∀ x ∈ xs, f x ≤ g x)
    (hSum : (xs.map g).sum ≤ (xs.map f).sum) : ∀ x ∈ xs, f x = g x := by
  induction xs with
  | nil => exact fun x hx => nomatch hx
  | cons x xs ih =>
    have hHead := hLe x List.mem_cons_self
    have hTail : ∀ y ∈ xs, f y ≤ g y := fun y hy => hLe y (List.mem_cons_of_mem _ hy)
    have hTails := List.sum_le_sum hTail
    simp only [List.map_cons, List.sum_cons] at hSum
    intro y hy
    rcases List.mem_cons.mp hy with rfl | hy
    · omega
    · exact ih hTail (by omega) y hy

/-- An item that is not expanded has no pieces but expressions. -/
theorem madePieces_captured {item : Item} (hTop : ∀ exprs span, item ≠ .topLevel exprs span)
    (hNone : ∀ ti, item ≠ .templateInstance ti) :
    Item.madePieces templates item = (Item.captured item).map .inl ∧
      Item.duePieces templates item =
        (pieces templates (Item.captured item)).map (Sum.map id TemplateUse.made) := by
  cases item with
  | topLevel exprs span => exact absurd rfl (hTop exprs span)
  | templateInstance ti => exact absurd rfl (hNone ti)
  | _ => exact ⟨rfl, rfl⟩

theorem madePieces_le {item : Item} (hNone : ∀ ti, item ≠ .templateInstance ti) :
    (Item.madePieces templates item).countP Sum.isRight ≤
      (Item.duePieces templates item).countP Sum.isRight := by
  by_cases hTop : ∃ exprs span, item = .topLevel exprs span
  · obtain ⟨exprs, span, rfl⟩ := hTop
    exact Nat.le_refl _
  · rw [(madePieces_captured (fun exprs span hEq => hTop ⟨exprs, span, hEq⟩) hNone).1, countP_inl]
    exact Nat.zero_le _

/-- The pieces of an item are the due ones exactly when nothing captured is a run. -/
theorem captured_iff {item : Item} (hNone : ∀ ti, item ≠ .templateInstance ti) :
    (Item.madePieces templates item = Item.duePieces templates item ↔
      ∀ pre post, Item.captured item = pre ++ post → useAt templates post = none) ∧
    ((Item.madePieces templates item).countP Sum.isRight =
        (Item.duePieces templates item).countP Sum.isRight →
      Item.madePieces templates item = Item.duePieces templates item) := by
  by_cases hTop : ∃ exprs span, item = .topLevel exprs span
  · obtain ⟨exprs, span, rfl⟩ := hTop
    refine ⟨iff_of_true rfl fun pre post hEq => ?_, fun _ => rfl⟩
    have hEmpty : pre ++ post = [] := hEq.symm
    rw [(List.append_eq_nil_iff.mp hEmpty).2]
    rfl
  · obtain ⟨hMade, hDue⟩ :=
      @madePieces_captured templates _ (fun exprs span hEq => hTop ⟨exprs, span, hEq⟩) hNone
    have hFree : (∀ pre post, Item.captured item = pre ++ post → useAt templates post = none) →
        Item.madePieces templates item = Item.duePieces templates item := by
      intro hPlain
      rw [hMade, hDue, pieces_plain hPlain, List.map_map]
      rfl
    have hCount : (Item.madePieces templates item).countP Sum.isRight =
        (Item.duePieces templates item).countP Sum.isRight →
          ∀ pre post, Item.captured item = pre ++ post → useAt templates post = none := by
      intro hEq
      apply pieces_count_iff.mp
      rw [hMade, countP_inl, hDue, List.countP_map] at hEq
      rw [hEq]
      congr 1
      funext p
      cases p <;> rfl
    exact ⟨⟨fun hEq => hCount (by rw [hEq]), hFree⟩, fun hEq => hFree (hCount hEq)⟩

/-- The pieces of a program are the due ones exactly when those of each item are. -/
theorem program_pieces_iff {items : List Item} (hNone : ∀ ti, .templateInstance ti ∉ items) :
    items.flatMap (Item.madePieces templates) = items.flatMap (Item.duePieces templates) ↔
      ∀ item ∈ items, ∀ pre post, Item.captured item = pre ++ post → useAt templates post = none := by
  have hOther : ∀ item ∈ items, ∀ ti, item ≠ .templateInstance ti := by
    rintro item hItem ti rfl
    exact hNone ti hItem
  constructor
  · intro hEq item hItem
    have hSum := congrArg (List.countP Sum.isRight) hEq
    rw [List.countP_flatMap, List.countP_flatMap] at hSum
    have hEach := counts_eq (fun item hItem => madePieces_le (hOther item hItem)) hSum.ge item hItem
    exact (captured_iff (hOther item hItem)).1.mp ((captured_iff (hOther item hItem)).2 hEach)
  · intro hPlain
    apply List.flatMap_congr
    intro item hItem
    exact (captured_iff (hOther item hItem)).1.mpr (hPlain item hItem)

end

/-! The compile. -/

section
variable (host : Host) (fs : FileSystem) (source : String) (ctx : CompileContext)

/-- The templates that a compile knows: those of its own texts and those of earlier compiles. -/
def compileTemplates : Dict String TemplateDef :=
  templatesOf (mergedItems host fs source ctx) ctx.templates

/-- The load-time code of a program in its pieces, each use of a template being one instance, is what the
expansion makes exactly when no CONSTANT and no VALUE has captured a use. -/
theorem expanded_once :
    (expandedItems host fs source ctx).flatMap Item.loadPieces =
        (mergedItems host fs source ctx).flatMap
          (Item.duePieces (compileTemplates host fs source ctx)) ↔
      ∀ item ∈ mergedItems host fs source ctx, ∀ pre post, Item.captured item = pre ++ post →
        useAt (compileTemplates host fs source ctx) post = none := by
  have hPieces := expanded_pieces (mergedItems host fs source ctx) ctx.templates
  have hItems : expandedItems host fs source ctx =
      (expandTemplates ⟨mergedItems host fs source ctx⟩ ctx.templates).items := rfl
  rw [hItems, hPieces]
  exact program_pieces_iff fun ti => merged_no_instance host fs source ctx ti

end

/-- A CONSTANT takes the run in front of its value along. -/
theorem not_expanded_once :
    ¬ ∀ source, (expandedItems noLet noFiles source .new).flatMap Item.loadPieces =
      (mergedItems noLet noFiles source .new).flatMap
        (Item.duePieces (compileTemplates noLet noFiles source .new)) := by
  intro hAll
  let source := ": buffer: create cells allot does> swap cells + ; 5 buffer: buf 10 constant k"
  have hMade : ((expandedItems noLet noFiles source .new).flatMap Item.loadPieces).countP
      Sum.isRight = 0 := by
    decide +kernel
  have hDue : ((mergedItems noLet noFiles source .new).flatMap
      (Item.duePieces (compileTemplates noLet noFiles source .new))).countP Sum.isRight = 1 := by
    decide +kernel
  have hSame := hAll source
  rw [hSame, hDue] at hMade
  cases hMade

end FactorForth.Correctness
