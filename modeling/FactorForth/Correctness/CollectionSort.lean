import FactorForth.Correctness.CollectionMeaning
import FactorForth.Library.StableSort
import FactorForth.Protocols.Sort

/-! The sort leaves the elements in the order of `cmp`, equals as they were, and keeps to the indices of
the collection. -/

namespace FactorForth.Correctness
open FactorForth.Library FactorForth.Protocols
open FactorForth.Semantics (LoopFrame)
variable {α ω : Type}

/-! Writing. -/

/-- The store of a collection with other elements. -/
def rewritten (ys : List (Val α)) : Val α → Store α
  | .grid _ _ _ => .cells ys
  | .string chars => rewritten ys chars
  | _ => .rawvec ys

/-- The heap with other elements in a collection. -/
def refill (h : List (Store α)) (c : Val α) (ys : List (Val α)) : List (Store α) :=
  h.set (storeOf c) (rewritten ys c)

section Writing
variable {h : List (Store α)} {c : Val α} {xs : List (Val α)} (st : List (Val α))
  (fr : List LoopFrame) (w : ω)

theorem holds_refill (hc : Holds h c xs) {ys : List (Val α)} (hLength : ys.length = xs.length) :
    Holds (refill h c ys) c ys := by
  have hSet : ∀ {a : Nat} {s t : Store α}, h[a]? = some s → (h.set a t)[a]? = some t := by
    intro a s t ha
    obtain ⟨hLess, -⟩ := List.getElem?_eq_some_iff.1 ha
    rw [List.getElem?_set_self hLess]
  induction c with
  | grid width height a => exact ⟨hSet hc.1, hLength ▸ hc.2⟩
  | darray a => exact hSet hc
  | string chars ih => exact ih hc
  | _ => exact hc.elim

theorem refill_refill (ys zs : List (Val α)) : refill (refill h c ys) c zs = refill h c zs :=
  List.set_set ..

theorem refill_self (hc : Holds h c xs) : refill h c xs = h := by
  have hSame : ∀ {a : Nat} {s : Store α}, h[a]? = some s → h.set a s = h := by
    intro a s ha
    obtain ⟨hLess, rfl⟩ := List.getElem?_eq_some_iff.1 ha
    exact List.set_getElem_self hLess
  induction c with
  | grid width height a => exact hSame hc.1
  | darray a => exact hSame hc
  | string chars ih => exact ih hc
  | _ => exact hc.elim

theorem putAt_set (P : Program α ω) (hc : Holds h c xs) {i : Nat} (hi : i < xs.length) (x : Val α) :
    putAt P (⟨c :: .int i :: x :: st, fr, h, w⟩ : Machine α ω) =
      .ok ⟨st, fr, refill h c (xs.set i x), w⟩ := by
  show putMethod P c ⟨c :: .int i :: x :: st, fr, h, w⟩ = _
  induction c with
  | grid width height a =>
    have hBounds : (0 : Int) ≤ i ∧ (i : Int) < xs.length := by omega
    show cellsSet ⟨.int i :: .addr a :: x :: st, fr, h, w⟩ >>= seq [] = _
    rw [cellsSet, bind1_run]
    simp only [withStore_run _ _ _ _ (cells?_of hc.1), bind1_run, if_pos hBounds, Int.toNat_natCast,
      write_run]
    rfl
  | darray a =>
    have hNone : i + 1 - xs.length = 0 := by omega
    show rawvecSet P ⟨.addr a :: .int i :: x :: st, fr, h, w⟩ >>= seq [] = _
    rw [rawvecSet, withStore_run _ _ _ _ (rawvec?_of hc), bind2_run]
    simp only [Int.natCast_nonneg, if_true, Int.toNat_natCast, hNone, List.replicate_zero,
      List.append_nil, write_run]
    rfl
  | string chars ih =>
    show putMethod P chars ⟨chars :: .int i :: x :: st, fr, h, w⟩ >>= seq [] = _
    rw [ih hc]
    rfl
  | _ => exact hc.elim

end Writing

/-! The words for `at` and `at!`. -/

/-- These words are `at` and `at!` inside the bounds of a collection. -/
structure Accesses (P : Program α ω) (at_ put : Word α ω) : Prop where
  read : ∀ {h : List (Store α)} {c : Val α} {xs : List (Val α)} (st : List (Val α)) (fr : List LoopFrame)
    (w : ω), Holds h c xs → ∀ {i : Nat} (hi : i < xs.length),
      at_ ⟨c :: .int i :: st, fr, h, w⟩ = .ok ⟨xs[i] :: st, fr, h, w⟩
  write : ∀ {h : List (Store α)} {c : Val α} {xs : List (Val α)} (st : List (Val α)) (fr : List LoopFrame)
    (w : ω), Holds h c xs → ∀ {i : Nat}, i < xs.length → ∀ x,
      put ⟨c :: .int i :: x :: st, fr, h, w⟩ = .ok ⟨st, fr, refill h c (xs.set i x), w⟩

theorem accesses (P : Program α ω) : Accesses P elementAt (putAt P) :=
  ⟨fun st fr w hc _ hi => elementAt_run st fr w hc hi, fun st fr w hc _ hi x => putAt_set st fr w P hc hi x⟩

theorem guarded_run {access : Word α ω} {h : List (Store α)} {c : Val α} {xs st : List (Val α)}
    (fr : List LoopFrame) (w : ω) (hc : Holds h c xs) {i : Nat} (hi : i < xs.length) :
    guarded access ⟨c :: .int i :: st, fr, h, w⟩ = access ⟨c :: .int i :: st, fr, h, w⟩ := by
  have hBounds : (0 : Int) ≤ i ∧ (i : Int) < xs.length := by omega
  simp only [guarded, size_run _ _ _ hc, if_pos hBounds]

theorem accesses_guarded (P : Program α ω) : Accesses P (guarded elementAt) (guarded (putAt P)) := by
  constructor
  · intro h c xs st fr w hc i hi
    rw [guarded_run fr w hc hi, elementAt_run st fr w hc hi]
  · intro h c xs st fr w hc i hi x
    rw [guarded_run fr w hc hi, putAt_set st fr w P hc hi]

theorem Accesses.read_here {P : Program α ω} {at_ put : Word α ω} (hAccess : Accesses P at_ put)
    {h : List (Store α)} {c x : Val α} {low rest : List (Val α)} (st : List (Val α)) (fr : List LoopFrame)
    (w : ω) (hc : Holds h c (low ++ x :: rest)) :
    at_ ⟨c :: .int low.length :: st, fr, h, w⟩ = .ok ⟨x :: st, fr, h, w⟩ := by
  have hLess : low.length < (low ++ x :: rest).length := by
    rw [List.length_append, List.length_cons]
    omega
  rw [hAccess.read st fr w hc hLess, List.getElem_append_right le_rfl]
  simp only [Nat.sub_self, List.getElem_cons_zero]

/-! One insertion. -/

/-- The condition of the loop of `insert-at-i`. -/
def aboveKey (P : Program α ω) (at_ : Word α ω) (c key : Val α) : List (Word α ω) :=
  [dup, lit 0, greaterThan, ifElse P
    [dup, oneMinus, push c, at_, push key, cmp P, zeroGreater]
    [lit 0]]

/-- The body of that loop. -/
def shiftUp (at_ put : Word α ω) (c : Val α) : List (Word α ω) :=
  [dup, oneMinus, push c, at_, over_, push c, put, oneMinus]

section Insertion
variable {P : Program α ω} {c key : Val α} {order : Val α → Val α → Int} (st : List (Val α))
  (fr : List LoopFrame)

theorem aboveKey_run {at_ put : Word α ω} (hAccess : Accesses P at_ put) {h : List (Store α)}
    {low rest : List (Val α)} {x : Val α} (hc : Holds h c (low ++ x :: rest)) (w : ω)
    (hKey : ((P.cmp x key).run w).1 = order x key) :
    seq (aboveKey P at_ c key) ⟨.int (low.length + 1 : Nat) :: st, fr, h, w⟩ =
      .ok ⟨.int (boolToFlag (decide (0 < order x key))) :: .int (low.length + 1 : Nat) :: st, fr, h,
        ((P.cmp x key).run w).2⟩ := by
  have hBack : ((low.length + 1 : Nat) : Int) - 1 = (low.length : Nat) := by omega
  have hPositive : decide ((0 : Int) < (low.length + 1 : Nat)) = true := decide_eq_true (by omega)
  simp only [aboveKey, seq_cons, dup_run, ok_bind, lit_run, greaterThan, int2_run, hPositive, ifElse_run,
    truthy_flag, if_true, oneMinus, int1_run, hBack, push_run, hAccess.read_here _ _ _ hc, cmp_run,
    zeroGreater, hKey, seq_nil]

theorem shiftUp_run {at_ put : Word α ω} (hAccess : Accesses P at_ put) {h : List (Store α)}
    {low rest : List (Val α)} {x gap : Val α} (hc : Holds h c (low ++ x :: gap :: rest)) (w : ω) :
    seq (shiftUp at_ put c) ⟨.int (low.length + 1 : Nat) :: st, fr, h, w⟩ =
      .ok ⟨.int low.length :: st, fr, refill h c (low ++ x :: x :: rest), w⟩ := by
  have hBack : ((low.length + 1 : Nat) : Int) - 1 = (low.length : Nat) := by omega
  have hLess : low.length + 1 < (low ++ x :: gap :: rest).length := by
    rw [List.length_append, List.length_cons, List.length_cons]
    omega
  have hSet : (low ++ x :: gap :: rest).set (low.length + 1) x = low ++ x :: x :: rest := by
    have hIndex : low.length + 1 - low.length = 1 := Nat.add_sub_cancel_left ..
    rw [List.set_append_right _ _ (Nat.le_succ _), Nat.succ_eq_add_one, hIndex]
    rfl
  simp only [shiftUp, seq_cons, dup_run, ok_bind, oneMinus, int1_run, hBack, push_run,
    hAccess.read_here _ _ _ hc, over_run, hAccess.write _ _ _ hc hLess, hSet, seq_nil]

/-- The cursor goes down past what is above the key; `gap` stands where the key belongs. -/
theorem shift_run (low : List (Val α)) : ∀ {h : List (Store α)} (gap : Val α) (high rest : List (Val α))
    (w : ω) (fuel : Nat), low.length < fuel → Holds h c (low ++ gap :: (high ++ rest)) →
    (∀ x ∈ low, ∀ w, ((P.cmp x key).run w).1 = order x key) →
    ∃ front back gap' w', low = front ++ back ∧ (∀ x ∈ front.getLast?, order x key ≤ 0) ∧
      (∀ x ∈ back, 0 < order x key) ∧ ∀ {at_ put : Word α ω}, Accesses P at_ put →
        whileLoop P (aboveKey P at_ c key) (shiftUp at_ put c) fuel ⟨.int low.length :: st, fr, h, w⟩ =
          .ok ⟨.int front.length :: st, fr, refill h c (front ++ gap' :: (back ++ high ++ rest)), w'⟩ := by
  induction low using List.reverseRecOn with
  | nil =>
    intro h gap high rest w fuel hFuel hc hKey
    obtain ⟨fuel, rfl⟩ := Nat.exists_eq_add_of_le' hFuel
    refine ⟨[], [], gap, w, rfl, fun x hx => (by cases hx), fun x hx => (by cases hx), ?_⟩
    intro at_ put hAccess
    have hPred : seq (aboveKey P at_ c key) ⟨.int 0 :: st, fr, h, w⟩ =
        .ok ⟨.int 0 :: .int 0 :: st, fr, h, w⟩ := rfl
    have hSelf : refill h c ([] ++ gap :: ([] ++ high ++ rest)) = h := refill_self hc
    rw [hSelf]
    exact whileLoop_end hPred rfl fuel
  | append_singleton low x ih =>
    intro h gap high rest w fuel hFuel hc hKey
    have hWhole : low ++ [x] ++ gap :: (high ++ rest) = low ++ x :: gap :: (high ++ rest) := by
      rw [List.append_assoc, List.singleton_append]
    have hLength : (low ++ [x]).length = low.length + 1 := by
      rw [List.length_append, List.length_singleton]
    rw [hLength] at hFuel ⊢
    obtain ⟨fuel, rfl⟩ : ∃ less, fuel = less + 1 := ⟨fuel - 1, by omega⟩
    have hOrder := hKey x (List.mem_append_right _ (List.mem_singleton_self _)) w
    by_cases hAbove : 0 < order x key
    · have hNext : Holds (refill h c (low ++ x :: (x :: high ++ rest))) c
          (low ++ x :: (x :: high ++ rest)) := by
        refine holds_refill hc ?_
        simp only [List.length_append, List.length_cons, List.length_nil]
        omega
      obtain ⟨front, back, gap', w', hLow, hFront, hBack, hRun⟩ :=
        ih x (x :: high) rest ((P.cmp x key).run w).2 fuel (by omega) hNext
          fun y hy => hKey y (List.mem_append_left _ hy)
      refine ⟨front, back ++ [x], gap', w', ?_, hFront, ?_, fun hAccess => ?_⟩
      · rw [hLow, List.append_assoc]
      · intro y hy
        rcases List.mem_append.mp hy with hy | hy
        · exact hBack y hy
        · rw [List.mem_singleton.mp hy]
          exact hAbove
      · rw [hWhole] at hc
        have hPred := aboveKey_run st fr hAccess hc w hOrder
        have hBody := shiftUp_run st fr hAccess hc ((P.cmp x key).run w).2
        have hFlag : P.truthy (.int (boolToFlag (decide (0 < order x key)))) = true := by
          rw [truthy_flag, decide_eq_true hAbove]
        have hRest := hRun hAccess
        rw [refill_refill] at hRest
        rw [whileLoop_next hPred hFlag hBody]
        simpa only [List.append_assoc, List.cons_append, List.nil_append] using hRest
    · refine ⟨low ++ [x], [], gap, ((P.cmp x key).run w).2, (List.append_nil _).symm, ?_,
        fun y hy => (by cases hy), fun hAccess => ?_⟩
      · intro y hy
        rw [List.getLast?_concat, Option.mem_some_iff] at hy
        rw [← hy]
        exact Int.not_lt.mp hAbove
      · have hSelf : refill h c (low ++ [x] ++ gap :: ([] ++ high ++ rest)) = h := refill_self hc
        rw [hWhole] at hc
        rw [hSelf, hLength]
        refine whileLoop_end (aboveKey_run st fr hAccess hc w hOrder) ?_ fuel
        rw [truthy_flag, decide_eq_false hAbove]

/-- The element behind `low` goes to its place. -/
theorem insertAtI_run {h : List (Store α)} {low rest : List (Val α)} (w : ω) {fuel : Nat}
    (hFuel : low.length < fuel) (hc : Holds h c (low ++ key :: rest))
    (hKey : ∀ x ∈ low, ∀ w, ((P.cmp x key).run w).1 = order x key) :
    ∃ front back w', low = front ++ back ∧ (∀ x ∈ front.getLast?, order x key ≤ 0) ∧
      (∀ x ∈ back, 0 < order x key) ∧ ∀ {at_ put : Word α ω}, Accesses P at_ put →
        insertAtIOver P fuel at_ put ⟨.int low.length :: c :: st, fr, h, w⟩ =
          .ok ⟨st, fr, refill h c (front ++ key :: back ++ rest), w'⟩ := by
  obtain ⟨front, back, gap, w', hLow, hFront, hBack, hRun⟩ :=
    shift_run st fr low key [] rest w fuel hFuel hc hKey
  have hMoved : Holds (refill h c (front ++ gap :: (back ++ [] ++ rest))) c
      (front ++ gap :: (back ++ [] ++ rest)) := by
    refine holds_refill hc ?_
    rw [hLow, List.append_nil]
    simp only [List.length_append, List.length_cons]
    omega
  have hPlace : front.length < (front ++ gap :: (back ++ [] ++ rest)).length := by
    rw [List.length_append, List.length_cons]
    omega
  have hSet : (front ++ gap :: (back ++ [] ++ rest)).set front.length key =
      front ++ key :: back ++ rest := by
    rw [List.set_append_right _ _ le_rfl, Nat.sub_self, List.set_cons_zero, List.append_nil,
      List.append_assoc, List.cons_append]
  refine ⟨front, back, w', hLow, hFront, hBack, fun hAccess => ?_⟩
  have hLoop := hRun hAccess
  simp only [aboveKey, shiftUp] at hLoop
  simp only [insertAtIOver, bind2_run, seq_cons, push_run, ok_bind, hAccess.read_here _ _ _ hc, bind1_run,
    hLoop, swap_run, hAccess.write st fr w' hMoved hPlace, hSet, refill_refill, seq_nil]

end Insertion

/-! The whole sort. -/

/-- In the order of `cmp`, equals as they were. -/
def Sorts (order : Val α → Val α → Int) (xs ys : List (Val α)) : Prop :=
  StableSort (fun a b => order a b ≤ 0) xs xs ys

section Whole
variable {P : Program α ω} {order : Val α → Val α → Int} {h : List (Store α)} {c : Val α}
  {xs : List (Val α)} (st : List (Val α)) (fr : List LoopFrame) (w : ω)

theorem Orders.preorders (hOrders : Orders P order xs) : Preorders (fun a b => order a b ≤ 0) xs := by
  refine ⟨fun a ha b hb => ?_, hOrders.trans⟩
  have hSign := hOrders.antisymm a ha b hb
  omega

theorem sortOver_run (hc : Holds h c xs) (hne : xs ≠ []) (hOrders : Orders P order xs) {fuel : Nat}
    (hFuel : xs.length ≤ fuel) :
    ∃ ys w', Sorts order xs ys ∧ ∀ {at_ put : Word α ω}, Accesses P at_ put →
      sortOver P fuel at_ put ⟨c :: st, fr, h, w⟩ = .ok ⟨st, fr, refill h c ys, w'⟩ := by
  have hPos := List.length_pos_iff.2 hne
  -- after the passes below `i` the first `i` elements are sorted
  let Inv (i : Nat) (m : Machine α ω) : Prop := ∃ ys w', m = ⟨st, fr, refill h c (ys ++ xs.drop i), w'⟩ ∧
    StableSort (fun a b => order a b ≤ 0) xs (xs.take i) ys
  let pass (access : { a : Word α ω × Word α ω // Accesses P a.1 a.2 }) : List (Word α ω) :=
    [push c, index, insertAtIOver P fuel access.1.1 access.1.2]
  have hPass : ∀ i m, 1 ≤ i → i < xs.length → Inv i m →
      ∃ m', (∀ access, seq (pass access) (m.inLoop xs.length i) = .ok (m'.inLoop xs.length i)) ∧
        Inv (i + 1) m' := by
    rintro i _ - hi ⟨ys, w, rfl, hSorted⟩
    have hTake : xs.take (i + 1) = xs.take i ++ [xs[i]] := List.take_succ_eq_append_getElem hi
    have hDrop : xs.drop i = xs[i] :: xs.drop (i + 1) := List.drop_eq_getElem_cons hi
    have hCount : ys.length = i := by
      rw [hSorted.perm.length_eq, List.length_take]
      omega
    have hTaken : ∀ y ∈ ys, y ∈ xs := fun y hy => List.mem_of_mem_take (hSorted.perm.mem_iff.mp hy)
    have hHolds : Holds (refill h c (ys ++ xs[i] :: xs.drop (i + 1))) c (ys ++ xs[i] :: xs.drop (i + 1)) := by
      refine holds_refill hc ?_
      rw [List.length_append, List.length_cons, List.length_drop]
      omega
    obtain ⟨front, back, w', rfl, hFront, hBack, hRun⟩ :=
      insertAtI_run st (⟨xs.length, i, false⟩ :: fr) w (hCount.trans_lt (hi.trans_le hFuel)) hHolds
        fun x hx w => hOrders.computes x (hTaken x hx) xs[i] (List.getElem_mem hi) w
    rw [hCount, refill_refill] at hRun
    refine ⟨⟨st, fr, refill h c (front ++ xs[i] :: back ++ xs.drop (i + 1)), w'⟩, ?_, _, w', rfl, ?_⟩
    · intro access
      rw [hDrop]
      simp only [pass, Machine.inLoop, seq_cons, push_run, ok_bind, index_run, hRun access.2, seq_nil]
    · rw [hTake]
      exact hSorted.insert hOrders.preorders (fun y hy => List.mem_of_mem_take hy) (List.getElem_mem hi)
        hFront fun y hy => Int.not_le.mpr (hBack y hy)
  have hStart : Inv 1 ⟨st, fr, h, w⟩ := by
    obtain ⟨x, rest, rfl⟩ := List.exists_cons_of_ne_nil hne
    exact ⟨[x], w, by rw [List.drop_one, List.tail_cons, List.singleton_append, refill_self hc],
      StableSort.singleton⟩
  obtain ⟨_, hRun, ys, w', rfl, hSorted⟩ := qdoLoop_keeps Inv hPos hPass hStart
  rw [List.drop_length, List.append_nil] at hRun
  rw [List.take_length] at hSorted
  refine ⟨ys, w', hSorted, fun hAccess => ?_⟩
  simp only [sortOver, bind1_run, seq_cons, push_run, ok_bind, size_run _ _ _ hc, lit_run, bind_seq_nil]
  exact hRun ⟨(_, _), hAccess⟩

/-- What is sorted has no inversion. -/
theorem sorted?_sorted {ys : List (Val α)} (hc : Holds h c ys) (hne : ys ≠ [])
    (hOrders : Orders P order ys) (hSorted : ys.Pairwise fun a b => order a b ≤ 0) :
    ∃ w', sorted? P ⟨c :: st, fr, h, w⟩ = .ok ⟨.int (-1) :: st, fr, h, w'⟩ := by
  have hAll : notInverted (results (neighbours P) (ys.zip ys.tail) w) = true := by
    refine List.all_eq_true.2 fun n hn => decide_eq_true ?_
    by_contra hPositive
    obtain ⟨before, p, hPrefix, -, hVerdict⟩ := exists_first_result (p := fun n : Int => n ≤ 0)
      fun hAll => hPositive (hAll n hn)
    obtain ⟨i, hi, hPair⟩ := List.getElem_of_mem (hPrefix.subset (List.mem_append_right _
      (List.mem_singleton_self p)))
    rw [List.getElem_zip, List.getElem_tail] at hPair
    rw [List.length_zip, List.length_tail] at hi
    have hNext : i + 1 < ys.length := by omega
    refine hVerdict ?_
    rw [neighbours, ← hPair, hOrders.computes _ (List.getElem_mem _) _ (List.getElem_mem _)]
    exact List.pairwise_iff_getElem.1 hSorted i (i + 1) (by omega) hNext (Nat.lt_succ_self i)
  refine ⟨visited (neighbours P) (ys.zip ys.tail) w, ?_⟩
  rw [sorted?_run P st fr w hc hne, hAll]
  rfl

/-- The sort ends, with a permutation of the elements in the order of `cmp` in which equals are as they
were, without an access outside of the bounds, and nothing else is changed but by `cmp`. -/
theorem sort_sorts (hc : Holds h c xs) (hne : xs ≠ []) (hOrders : Orders P order xs) {fuel : Nat}
    (hFuel : xs.length ≤ fuel) :
    ∃ ys w', Sorts order xs ys ∧ Holds (refill h c ys) c ys ∧
      sort P fuel ⟨c :: st, fr, h, w⟩ = .ok ⟨st, fr, refill h c ys, w'⟩ ∧
      sortOver P fuel (guarded elementAt) (guarded (putAt P)) ⟨c :: st, fr, h, w⟩ =
        sort P fuel ⟨c :: st, fr, h, w⟩ ∧
      ∃ w'', sorted? P ⟨c :: st, fr, refill h c ys, w'⟩ = .ok ⟨.int (-1) :: st, fr, refill h c ys, w''⟩ := by
  obtain ⟨ys, w', hSorts, hRun⟩ := sortOver_run st fr w hc hne hOrders hFuel
  have hHolds := holds_refill hc hSorts.perm.length_eq
  have hSame : ∀ y ∈ ys, y ∈ xs := fun y hy => hSorts.perm.mem_iff.mp hy
  have hOrders' : Orders P order ys := ⟨fun a ha b hb => hOrders.computes a (hSame a ha) b (hSame b hb),
    fun a ha b hb => hOrders.antisymm a (hSame a ha) b (hSame b hb),
    fun a ha b hb c hc => hOrders.trans a (hSame a ha) b (hSame b hb) c (hSame c hc)⟩
  have hne' : ys ≠ [] := by
    rintro rfl
    exact hne hSorts.perm.nil_eq.symm
  have hSort : sort P fuel ⟨c :: st, fr, h, w⟩ = .ok ⟨st, fr, refill h c ys, w'⟩ := hRun (accesses P)
  refine ⟨ys, w', hSorts, hHolds, hSort, ?_, ?_⟩
  · rw [hSort]
    exact hRun (accesses_guarded P)
  · exact sorted?_sorted st fr w' hHolds hne' hOrders' hSorts.sorted

end Whole

/-- The order of numbers. -/
def byNumber : Val Unit → Val Unit → Int
  | .int m, .int n => m - n
  | _, _ => 0

theorem orders_byNumber (ns : List Int) : Orders countingProgram byNumber (ns.map .int) := by
  constructor
  · intro a ha b hb w
    obtain ⟨m, -, rfl⟩ := List.mem_map.mp ha
    obtain ⟨n, -, rfl⟩ := List.mem_map.mp hb
    rfl
  · intro a ha b hb
    obtain ⟨m, -, rfl⟩ := List.mem_map.mp ha
    obtain ⟨n, -, rfl⟩ := List.mem_map.mp hb
    show 0 < m - n ↔ n - m < 0
    omega
  · intro a ha b hb c hc hab hbc
    obtain ⟨m, -, rfl⟩ := List.mem_map.mp ha
    obtain ⟨n, -, rfl⟩ := List.mem_map.mp hb
    obtain ⟨k, -, rfl⟩ := List.mem_map.mp hc
    exact Int.sub_nonpos_of_le (Int.le_trans (Int.le_of_sub_nonpos hab) (Int.le_of_sub_nonpos hbc))

theorem sort_sorts_three : ∃ ys w', Sorts byNumber ([3, 1, 2].map Val.int) ys ∧
    sort countingProgram 3 ⟨[.darray 0], [], [.rawvec ([3, 1, 2].map Val.int)], []⟩ =
      .ok ⟨[], [], refill [.rawvec ([3, 1, 2].map Val.int)] (.darray 0) ys, w'⟩ := by
  have hHolds : Holds [.rawvec ([3, 1, 2].map Val.int)] (.darray 0 : Val Unit) ([3, 1, 2].map Val.int) := rfl
  obtain ⟨ys, w', hSorts, -, hRun, -⟩ :=
    sort_sorts [] [] [] hHolds (List.cons_ne_nil _ _) (orders_byNumber [3, 1, 2]) (Nat.le_refl 3)
  exact ⟨ys, w', hSorts, hRun⟩

end FactorForth.Correctness
