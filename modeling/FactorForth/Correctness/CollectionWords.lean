import FactorForth.Protocols.Loops

/-! What each collection word does, in terms of the elements that its collections hold. -/

namespace FactorForth.Correctness
open FactorForth.Library FactorForth.Protocols
open FactorForth.Semantics (LoopFrame)
variable {α ω : Type}

/-! Predicates. -/

/-- A predicate's verdict beside the element it is about. -/
def verdict (P : Program α ω) (xt : α) (x : Val α) : StateM ω (Val α × Bool) := do
  let r ← P.call1r xt x
  pure (x, P.truthy r)

def kept (verdicts : List (Val α × Bool)) : List (Val α) := (verdicts.filter (·.2)).map (·.1)

def dropped (verdicts : List (Val α × Bool)) : List (Val α) := (verdicts.filter (!·.2)).map (·.1)

theorem kept_snoc (verdicts : List (Val α × Bool)) (p : Val α × Bool) :
    kept (verdicts ++ [p]) = if p.2 then kept verdicts ++ [p.1] else kept verdicts := by
  rw [kept, List.filter_append, List.map_append]
  cases hp : p.2 <;> simp [kept, hp]

theorem dropped_snoc (verdicts : List (Val α × Bool)) (p : Val α × Bool) :
    dropped (verdicts ++ [p]) = if p.2 then dropped verdicts else dropped verdicts ++ [p.1] := by
  rw [dropped, List.filter_append, List.map_append]
  cases hp : p.2 <;> simp [dropped, hp]

/-- The token's result is a function of its argument. -/
def Computes (P : Program α ω) (xt : α) (g : Val α → Val α) : Prop :=
  ∀ x w, ((P.call1r xt x).run w).1 = g x

section Computes
variable {P : Program α ω} {xt : α} {g : Val α → Val α} (hToken : Computes P xt g)
  (xs : List (Val α)) (w : ω)
include hToken

theorem results_of_computes : results (P.call1r xt) xs w = xs.map g :=
  results_of_pure _ _ _ hToken

theorem verdicts_of_computes :
    results (verdict P xt) xs w = xs.map fun x => (x, P.truthy (g x)) :=
  results_of_pure _ _ _ fun x w => congrArg (fun v => (x, P.truthy v)) (hToken x w)

theorem kept_of_computes :
    kept (results (verdict P xt) xs w) = xs.filter fun x => P.truthy (g x) := by
  rw [verdicts_of_computes hToken, kept, List.filter_map, List.map_map]
  exact List.map_id _

theorem dropped_of_computes :
    dropped (results (verdict P xt) xs w) = xs.filter fun x => !P.truthy (g x) := by
  rw [verdicts_of_computes hToken, dropped, List.filter_map, List.map_map]
  exact List.map_id _

end Computes

/-- A token whose result is a function of accumulator and element folds the list. -/
theorem folded_of_computes {P : Program α ω} {xt : α} {g : Val α → Val α → Val α}
    (hToken : ∀ a x w, ((P.call2r xt a x).run w).1 = g a x) (init : Val α) (xs : List (Val α)) (w : ω) :
    (folded (P.call2r xt) init xs w).1 = xs.foldl g init := folded_of_pure hToken init xs w

theorem verdict_run (P : Program α ω) (xt : α) (x : Val α) (w : ω) :
    (verdict P xt x).run w =
      ((x, P.truthy ((P.call1r xt x).run w).1), ((P.call1r xt x).run w).2) := rfl

section Runs
variable (P : Program α ω) {h : List (Store α)} {c : Val α} {xs : List (Val α)} (xt : α)
  (st : List (Val α)) (fr : List LoopFrame) (w : ω)

@[simp] theorem call1_run (x : Val α) :
    call1 P ⟨.other xt :: x :: st, fr, h, w⟩ = .ok ⟨st, fr, h, ((P.call1 xt x).run w).2⟩ := rfl

@[simp] theorem call1r_run (x : Val α) :
    call1r P ⟨.other xt :: x :: st, fr, h, w⟩ =
      .ok ⟨((P.call1r xt x).run w).1 :: st, fr, h, ((P.call1r xt x).run w).2⟩ := rfl

@[simp] theorem call2r_run (a b : Val α) :
    call2r P ⟨.other xt :: b :: a :: st, fr, h, w⟩ =
      .ok ⟨((P.call2r xt a b).run w).1 :: st, fr, h, ((P.call2r xt a b).run w).2⟩ := rfl

/-! Every element once, in order. -/

theorem each_run (hc : Holds h c xs) (hne : xs ≠ []) :
    each P ⟨.other xt :: c :: st, fr, h, w⟩ = .ok ⟨st, fr, h, visited (P.call1 xt) xs w⟩ := by
  simp only [each, bind2_run, seq_cons, push_run, ok_bind, size_run _ _ _ hc, lit_run]
  refine do_walk_then hne (fun pre => ⟨st, fr, h, visited (P.call1 xt) pre w⟩) 0 xs.length ?_
    (Nat.zero_add _) (fun pre x hp => ?_) rfl
  · rw [visited_nil]
    rfl
  · simp only [Machine.inLoop, Nat.zero_add, seq_cons, seq_nil, index_run, push_run, ok_bind,
      elementAt_item _ _ _ hc hp, call1_run, visited_snoc]

theorem each_empty (hc : Holds h c []) :
    each P ⟨.other xt :: c :: st, fr, h, w⟩ = .error .bounds := by
  simp only [each, bind2_run, seq_cons, push_run, ok_bind, size_run _ _ _ hc, lit_run]
  refine do_fault_then ⟨st, fr, h, w⟩ 0 (0 : Nat) rfl ?_
  simp only [Machine.inLoop, seq_cons, index_run, push_run, ok_bind, elementAt_empty _ _ _ hc,
    error_bind]

/-! Words that fill a new collection of the class of `c`. -/

theorem map_run (hc : Holds h c xs) :
    map P ⟨.other xt :: c :: st, fr, h, w⟩ =
      .ok ⟨like h.length c :: st, fr, h ++ [filling xs.length (results (P.call1r xt) xs w) c],
        visited (P.call1r xt) xs w⟩ := by
  simp only [map, bind2_run, seq_cons, push_run, ok_bind, newLike_run _ _ _ hc, bind1_run,
    size_run _ _ _ (hc.append _), lit_run, bind_seq_nil]
  refine walk_then _ (fun pre => ⟨st, fr, h ++ [filling xs.length (results (P.call1r xt) pre w) c],
    visited (P.call1r xt) pre w⟩) 0 xs.length ?_ (Nat.zero_add _) (fun pre x hp => ?_) rfl
  · rw [visited_nil, results_nil]
    rfl
  · simp only [Machine.inLoop, Nat.zero_add, seq_cons, seq_nil, index_run, push_run, ok_bind,
      elementAt_item _ _ _ (hc.append _) hp, call1r_run, visited_snoc, results_snoc,
      putAt_item _ _ _ P hc (length_results _ _ _) (length_lt_of_snoc hp)]

theorem mapIndex_run (hc : Holds h c xs) :
    mapIndex P ⟨.other xt :: c :: st, fr, h, w⟩ =
      .ok ⟨like h.length c :: st, fr,
        h ++ [filling xs.length (results (fun p => P.call2r xt (.int p.2) p.1) xs.zipIdx w) c],
        visited (fun p => P.call2r xt (.int p.2) p.1) xs.zipIdx w⟩ := by
  simp only [mapIndex, bind2_run, seq_cons, push_run, ok_bind, newLike_run _ _ _ hc, bind1_run,
    size_run _ _ _ (hc.append _), lit_run, bind_seq_nil]
  refine walk_then _ (fun pre => ⟨st, fr,
    h ++ [filling xs.length (results (fun p => P.call2r xt (.int p.2) p.1) pre.zipIdx w) c],
    visited (fun p => P.call2r xt (.int p.2) p.1) pre.zipIdx w⟩) 0 xs.length ?_ (Nat.zero_add _)
    (fun pre x hp => ?_) rfl
  · rw [List.zipIdx_nil, visited_nil, results_nil]
    rfl
  · have hLength : (results (fun p => P.call2r xt (.int p.2) p.1) pre.zipIdx w).length = pre.length := by
      rw [length_results, List.length_zipIdx]
    simp only [Machine.inLoop, Nat.zero_add, seq_cons, seq_nil, index_run, push_run, ok_bind,
      elementAt_item _ _ _ (hc.append _) hp, call2r_run, List.zipIdx_append, List.zipIdx_singleton,
      visited_snoc, results_snoc, putAt_item _ _ _ P hc hLength (length_lt_of_snoc hp)]

theorem reverse_run (hc : Holds h c xs) :
    reverse P ⟨c :: st, fr, h, w⟩ =
      .ok ⟨like h.length c :: st, fr, h ++ [filling xs.length xs.reverse c], w⟩ := by
  simp only [reverse, bind1_run, seq_cons, push_run, ok_bind, newLike_run _ _ _ hc,
    size_run _ _ _ (hc.append _), lit_run, bind_seq_nil]
  refine walk_then xs.reverse (fun pre => ⟨st, fr, h ++ [filling xs.length pre c], w⟩) 0
    xs.length rfl ?_ (fun pre x hp => ?_) rfl
  · rw [Nat.zero_add, List.length_reverse]
  · have hLess := length_lt_of_snoc hp
    rw [List.length_reverse] at hLess
    have hAt : xs.length - 1 - pre.length < xs.length := by omega
    have hItem : xs[xs.length - 1 - pre.length] = x := by
      have h := getElem?_of_snoc hp
      rw [List.getElem?_reverse hLess, List.getElem?_eq_getElem hAt, Option.some.injEq] at h
      exact h
    have hIndex : (xs.length : Int) - 1 - pre.length = (xs.length - 1 - pre.length : Nat) := by omega
    simp only [Machine.inLoop, Nat.zero_add, seq_cons, seq_nil, index_run, push_run, ok_bind,
      size_run _ _ _ (hc.append _), oneMinus, int1_run, minus, int2_run, hIndex,
      elementAt_run _ _ _ (hc.append _) hAt, hItem, putAt_item _ _ _ P hc rfl hLess]

/-! Words that gather elements in a new darray. -/

theorem filter_run (hc : Holds h c xs) (hne : xs ≠ []) :
    filter P ⟨.other xt :: c :: st, fr, h, w⟩ =
      .ok ⟨.darray h.length :: st, fr, h ++ [.rawvec (kept (results (verdict P xt) xs w))],
        visited (verdict P xt) xs w⟩ := by
  simp only [filter, bind2_run, seq_cons, push_run, ok_bind, newDarray_run, bind1_run,
    size_run _ _ _ (hc.append _), lit_run, bind_seq_nil]
  refine do_walk_then hne (fun pre => ⟨st, fr, h ++ [.rawvec (kept (results (verdict P xt) pre w))],
    visited (verdict P xt) pre w⟩) 0 xs.length ?_ (Nat.zero_add _) (fun pre x hp => ?_) rfl
  · rw [visited_nil, results_nil]
    rfl
  · simp only [Machine.inLoop, Nat.zero_add, seq_cons, seq_nil, index_run, push_run, ok_bind,
      elementAt_item _ _ _ (hc.append _) hp, dup_run, call1r_run, ifElse_run, visited_snoc, results_snoc,
      verdict_run, kept_snoc, dPush_here, drop_run]
    split <;> rfl

theorem filter_empty (hc : Holds h c []) :
    filter P ⟨.other xt :: c :: st, fr, h, w⟩ = .error .bounds := by
  simp only [filter, bind2_run, seq_cons, push_run, ok_bind, newDarray_run, bind1_run,
    size_run _ _ _ (hc.append _), lit_run, bind_seq_nil]
  refine do_fault_then ⟨st, fr, h ++ [.rawvec []], w⟩ 0 (0 : Nat) rfl ?_
  simp only [Machine.inLoop, seq_cons, index_run, push_run, ok_bind,
    elementAt_empty _ _ _ (hc.append _), error_bind]

theorem partition_run (hc : Holds h c xs) :
    partition P ⟨.other xt :: c :: st, fr, h, w⟩ =
      .ok ⟨.darray (h.length + 1) :: .darray h.length :: st, fr,
        h ++ [.rawvec (kept (results (verdict P xt) xs w)),
          .rawvec (dropped (results (verdict P xt) xs w))], visited (verdict P xt) xs w⟩ := by
  have hLength : (h ++ [.rawvec []] : List (Store α)).length = h.length + 1 := List.length_append
  have hNo : ∀ (ys zs : List (Val α)) (y : Val α) (st' : List (Val α)) (fr' : List LoopFrame) (w' : ω),
      dPush (⟨.darray (h.length + 1) :: y :: st', fr', h ++ [.rawvec ys, .rawvec zs], w'⟩ : Machine α ω) =
        .ok ⟨st', fr', h ++ [.rawvec ys, .rawvec (zs ++ [y])], w'⟩ := by
    intro ys zs y st' fr' w'
    have hPush := dPush_here (h := h ++ [.rawvec ys]) st' fr' w' zs [] y
    rwa [List.length_append, List.append_assoc, List.append_assoc] at hPush
  simp only [partition, bind2_run, seq_cons, push_run, ok_bind, newDarray_run, bind1_run, hLength,
    size_run _ _ _ ((hc.append _).append _), lit_run, bind_seq_nil]
  refine walk_then _ (fun pre => ⟨st, fr, h ++ [.rawvec (kept (results (verdict P xt) pre w)),
    .rawvec (dropped (results (verdict P xt) pre w))], visited (verdict P xt) pre w⟩) 0 xs.length ?_
    (Nat.zero_add _) (fun pre x hp => ?_) rfl
  · rw [visited_nil, results_nil, List.append_assoc]
    rfl
  · simp only [Machine.inLoop, Nat.zero_add, seq_cons, seq_nil, index_run, push_run, ok_bind,
      elementAt_item _ _ _ (hc.append _) hp, dup_run, call1r_run, ifElse_run, visited_snoc, results_snoc,
      verdict_run, kept_snoc, dropped_snoc, dPush_here, hNo]
    split <;> rfl

/-- Copy a stretch of a collection behind what a new darray holds. -/
theorem copy_then {ys items : List (Val α)} (lo : Nat) {hi : Nat} {rest : List (Word α ω)}
    {r : Except Fault (Machine α ω)} (hc : Holds h c xs) (hBounds : lo + items.length = hi)
    (hItems : items <+: xs.drop lo)
    (hRest : seq rest ⟨st, fr, h ++ [.rawvec (ys ++ items)], w⟩ = r) :
    (qdoLoop [index, push c, elementAt, push (.darray h.length), dPush]
      ⟨.int lo :: .int hi :: st, fr, h ++ [.rawvec ys], w⟩ >>= seq rest) = r := by
  refine walk_then _ (fun pre => ⟨st, fr, h ++ [.rawvec (ys ++ pre)], w⟩) lo hi ?_ hBounds
    (fun pre x hp => ?_) hRest
  · rw [List.append_nil]
    rfl
  · simp only [Machine.inLoop, seq_cons, seq_nil, index_run, push_run, ok_bind,
      elementAt_drop _ _ _ (hc.append _) lo (hp.trans hItems), dPush_here, List.append_assoc]

theorem concat_run {b : Val α} {ys : List (Val α)} (hc : Holds h c xs) (hb : Holds h b ys) :
    concat ⟨b :: c :: st, fr, h, w⟩ =
      .ok ⟨.darray h.length :: st, fr, h ++ [.rawvec (xs ++ ys)], w⟩ := by
  simp only [concat, bind2_run, seq_cons, push_run, ok_bind, newDarray_run, bind1_run,
    size_run _ _ _ (hc.append _), lit_run, bind_seq_nil]
  refine copy_then st fr w 0 hc (Nat.zero_add _) List.prefix_rfl ?_
  simp only [seq_cons, push_run, ok_bind, size_run _ _ _ (hb.append _), lit_run]
  exact copy_then st fr w 0 hb (Nat.zero_add _) List.prefix_rfl rfl

theorem take_run (hc : Holds h c xs) (n : Nat) :
    take ⟨.int n :: c :: st, fr, h, w⟩ =
      .ok ⟨.darray h.length :: st, fr, h ++ [.rawvec (xs.take n)], w⟩ := by
  have hLimit : min (n : Int) xs.length = (min n xs.length : Nat) := by omega
  simp only [take, bind2_run, seq_cons, push_run, ok_bind, newDarray_run, bind1_run,
    size_run _ _ _ (hc.append _), lit_run, bind_seq_nil, min_, int2_run, hLimit]
  refine copy_then st fr w 0 hc ?_ (List.take_prefix n xs) rfl
  rw [Nat.zero_add, List.length_take]

theorem skip_run (hc : Holds h c xs) (n : Nat) :
    skip ⟨.int n :: c :: st, fr, h, w⟩ =
      .ok ⟨.darray h.length :: st, fr, h ++ [.rawvec (xs.drop n)], w⟩ := by
  have hStart : min (n : Int) xs.length = (min n xs.length : Nat) := by omega
  have hDrop : xs.drop n = xs.drop (min n xs.length) := by
    rcases le_total n xs.length with hLe | hLe
    · rw [min_eq_left hLe]
    · rw [min_eq_right hLe, List.drop_length, List.drop_eq_nil_of_le hLe]
  simp only [skip, bind2_run, seq_cons, push_run, ok_bind, newDarray_run, bind1_run,
    size_run _ _ _ (hc.append _), bind_seq_nil, min_, int2_run, hStart]
  refine copy_then st fr w _ hc ?_ List.prefix_rfl ?_
  · rw [List.length_drop]
    omega
  · rw [hDrop]
    rfl

theorem skip_negative (hc : Holds h c xs) {n : Int} (hn : n < 0) :
    skip ⟨.int n :: c :: st, fr, h, w⟩ = .error .bounds := by
  have hStart : min n (xs.length : Int) = n := by omega
  simp only [skip, bind2_run, seq_cons, push_run, ok_bind, newDarray_run, bind1_run,
    size_run _ _ _ (hc.append _), bind_seq_nil, min_, int2_run, hStart]
  refine qdo_fault_then ⟨st, fr, h ++ [.rawvec []], w⟩ xs.length n rfl (by omega) ?_
  simp only [Machine.inLoop, seq_cons, index_run, push_run, ok_bind,
    elementAt_fault _ _ _ (hc.append _) (Or.inl hn), error_bind]

/-- A negative count still takes the element at index 0. -/
theorem take_negative {x : Val α} (hc : Holds h c (x :: xs)) {n : Int} (hn : n < 0) :
    take ⟨.int n :: c :: st, fr, h, w⟩ =
      .ok ⟨.darray h.length :: st, fr, h ++ [.rawvec [x]], w⟩ := by
  have hLimit : min n ((x :: xs).length : Int) = n := by omega
  have hAt : ∀ (st' : List (Val α)) (fr' : List LoopFrame) (news : List (Store α)),
      elementAt (⟨c :: .int 0 :: st', fr', h ++ news, w⟩ : Machine α ω) =
        .ok ⟨x :: st', fr', h ++ news, w⟩ := fun st' fr' news =>
    elementAt_run (i := 0) st' fr' w (hc.append news) (Nat.succ_pos _)
  simp only [take, bind2_run, seq_cons, push_run, ok_bind, newDarray_run, bind1_run,
    size_run _ _ _ (hc.append _), lit_run, bind_seq_nil, min_, int2_run, hLimit]
  have hPass : seq [index, push c, elementAt, push (.darray h.length), dPush]
      ((⟨st, fr, h ++ [.rawvec []], w⟩ : Machine α ω).inLoop n 0) =
        .ok ((⟨st, fr, h ++ [.rawvec [x]], w⟩ : Machine α ω).inLoop n 0) := by
    simp only [Machine.inLoop, seq_cons, seq_nil, index_run, push_run, ok_bind, hAt, dPush_here,
      List.nil_append]
  have hLoop := doLoop_once _ _ n 0 (by omega) hPass
  rw [← qdoLoop_of_ne (by omega)] at hLoop
  exact congrArg (· >>= seq [push (.darray h.length)]) hLoop

theorem take_negative_empty (hc : Holds h c []) {n : Int} (hn : n < 0) :
    take ⟨.int n :: c :: st, fr, h, w⟩ = .error .bounds := by
  have hLimit : min n (([] : List (Val α)).length : Int) = n := by
    rw [List.length_nil]
    omega
  simp only [take, bind2_run, seq_cons, push_run, ok_bind, newDarray_run, bind1_run,
    size_run _ _ _ (hc.append _), lit_run, bind_seq_nil, min_, int2_run, hLimit]
  refine qdo_fault_then ⟨st, fr, h ++ [.rawvec []], w⟩ n (0 : Nat) rfl (by omega) ?_
  simp only [Machine.inLoop, seq_cons, index_run, push_run, ok_bind,
    elementAt_empty _ _ _ (hc.append _), error_bind]

/-! Accumulators on the stack. -/

/-- The execution token acts as `f` on an accumulator and an element. -/
def Acts (P : Program α ω) (xt : Val α) (f : Val α → Val α → StateM ω (Val α)) : Prop :=
  ∀ a b st fr h w, call2r P ⟨xt :: b :: a :: st, fr, h, w⟩ =
    .ok ⟨((f a b).run w).1 :: st, fr, h, ((f a b).run w).2⟩

theorem acts_other : Acts P (.other xt) (P.call2r xt) := fun _ _ _ _ _ _ => rfl

/-- `lesser ( a b -- x )`, which leaves the second where neither comes before the other. -/
def lesserOf (a b : Val α) : StateM ω (Val α) := do
  let n ← P.cmp a b
  pure (if n < 0 then a else b)

/-- `greater ( a b -- x )`. -/
def greaterOf (a b : Val α) : StateM ω (Val α) := do
  let n ← P.cmp a b
  pure (if 0 < n then a else b)

theorem truthy_flag (b : Bool) : P.truthy (.int (boolToFlag b)) = b := by
  cases b <;> rfl

theorem cmp_run (a b : Val α) :
    cmp P ⟨b :: a :: st, fr, h, w⟩ =
      .ok ⟨.int ((P.cmp a b).run w).1 :: st, fr, h, ((P.cmp a b).run w).2⟩ := rfl

theorem acts_lesser : Acts P (.tick .lesser) (lesserOf P) := by
  intro a b st fr h w
  simp only [call2r, bind3_run, seq_cons, seq_nil, push_run, ok_bind, lesser, twoDup_run, before?, cmp_run,
    zeroLess, int1_run, ifElse_run, truthy_flag, drop_run, nip_run, decide_eq_true_eq]
  show _ = Except.ok (⟨(if ((P.cmp a b).run w).1 < 0 then a else b) :: st, fr, h,
    ((P.cmp a b).run w).2⟩ : Machine α ω)
  split <;> rfl

theorem acts_greater : Acts P (.tick .greater) (greaterOf P) := by
  intro a b st fr h w
  simp only [call2r, bind3_run, seq_cons, seq_nil, push_run, ok_bind, greater, twoDup_run, after?, cmp_run,
    zeroGreater, int1_run, ifElse_run, truthy_flag, drop_run, nip_run, decide_eq_true_eq]
  show _ = Except.ok (⟨(if 0 < ((P.cmp a b).run w).1 then a else b) :: st, fr, h,
    ((P.cmp a b).run w).2⟩ : Machine α ω)
  split <;> rfl

section Folds
variable {token : Val α} {f : Val α → Val α → StateM ω (Val α)}

theorem fold_run (hActs : Acts P token f) (hc : Holds h c xs) (hne : xs ≠ []) (init : Val α) :
    fold P ⟨token :: init :: c :: st, fr, h, w⟩ =
      .ok ⟨(folded f init xs w).1 :: st, fr, h, (folded f init xs w).2⟩ := by
  simp only [fold, bind3_run, seq_cons, push_run, ok_bind, size_run _ _ _ hc, lit_run]
  refine do_walk_then hne (fun pre => ⟨(folded f init pre w).1 :: st, fr, h, (folded f init pre w).2⟩)
    0 xs.length rfl (Nat.zero_add _) (fun pre x hp => ?_) rfl
  simp only [Machine.inLoop, Nat.zero_add, seq_cons, seq_nil, index_run, push_run, ok_bind,
    elementAt_item _ _ _ hc hp, hActs _ _ _ _ _ _, folded_snoc]

theorem fold_empty (token : Val α) (hc : Holds h c []) (init : Val α) :
    fold P ⟨token :: init :: c :: st, fr, h, w⟩ = .error .bounds := by
  simp only [fold, bind3_run, seq_cons, push_run, ok_bind, size_run _ _ _ hc, lit_run]
  refine do_fault_then ⟨init :: st, fr, h, w⟩ 0 (0 : Nat) rfl ?_
  simp only [Machine.inLoop, seq_cons, index_run, push_run, ok_bind, elementAt_empty _ _ _ hc,
    error_bind]

theorem reduce_run {x : Val α} (hc : Holds h c (x :: xs)) :
    reduce P ⟨.other xt :: c :: st, fr, h, w⟩ =
      .ok ⟨(folded (P.call2r xt) x xs w).1 :: st, fr, h, (folded (P.call2r xt) x xs w).2⟩ := by
  have hFirst : elementAt (⟨c :: .int 0 :: st, fr, h, w⟩ : Machine α ω) = .ok ⟨x :: st, fr, h, w⟩ :=
    elementAt_run (i := 0) st fr w hc (Nat.succ_pos _)
  simp only [reduce, bind2_run, seq_cons, push_run, ok_bind, size_run _ _ _ hc, lit_run, hFirst]
  refine walk_then xs (fun pre => ⟨(folded (P.call2r xt) x pre w).1 :: st, fr, h,
    (folded (P.call2r xt) x pre w).2⟩) 1 (x :: xs).length rfl ?_ (fun pre y hp => ?_) rfl
  · rw [List.length_cons, Nat.add_comm]
  · simp only [Machine.inLoop, seq_cons, seq_nil, index_run, push_run, ok_bind,
      elementAt_drop _ _ _ hc 1 hp, call2r_run, folded_snoc]

theorem minOf_run {x : Val α} (hc : Holds h c (x :: xs)) :
    minOf P ⟨c :: st, fr, h, w⟩ =
      .ok ⟨(folded (lesserOf P) x (x :: xs) w).1 :: st, fr, h,
        (folded (lesserOf P) x (x :: xs) w).2⟩ := by
  have hFirst : elementAt (⟨c :: .int 0 :: c :: st, fr, h, w⟩ : Machine α ω) =
      .ok ⟨x :: c :: st, fr, h, w⟩ := elementAt_run (i := 0) (c :: st) fr w hc (Nat.succ_pos _)
  simp only [minOf, seq_cons, dup_run, lit_run, ok_bind, swap_run, hFirst, push_run,
    fold_run P st fr w (acts_lesser P) hc (List.cons_ne_nil x xs), seq_nil]

theorem maxOf_run {x : Val α} (hc : Holds h c (x :: xs)) :
    maxOf P ⟨c :: st, fr, h, w⟩ =
      .ok ⟨(folded (greaterOf P) x (x :: xs) w).1 :: st, fr, h,
        (folded (greaterOf P) x (x :: xs) w).2⟩ := by
  have hFirst : elementAt (⟨c :: .int 0 :: c :: st, fr, h, w⟩ : Machine α ω) =
      .ok ⟨x :: c :: st, fr, h, w⟩ := elementAt_run (i := 0) (c :: st) fr w hc (Nat.succ_pos _)
  simp only [maxOf, seq_cons, dup_run, lit_run, ok_bind, swap_run, hFirst, push_run,
    fold_run P st fr w (acts_greater P) hc (List.cons_ne_nil x xs), seq_nil]

end Folds

end Runs
end FactorForth.Correctness
