import FactorForth.Correctness.CollectionWords

/-! What the searching words find: by a predicate, by equality and by order. -/

namespace FactorForth.Correctness
open FactorForth.Library FactorForth.Protocols
open FactorForth.Semantics (LoopFrame)
variable {α ω : Type}

/-! Flags. -/

theorem zero_ldiff (n : Nat) : Nat.ldiff 0 n = 0 := Nat.bitwise_zero_left n

theorem land_zero (n : Int) : Int.land n 0 = 0 := by
  cases n with
  | ofNat n => exact congrArg Int.ofNat (Nat.and_zero n)
  | negSucc n => exact congrArg Int.ofNat (zero_ldiff n)

theorem zero_land (n : Int) : Int.land 0 n = 0 := by
  cases n with
  | ofNat n => exact congrArg Int.ofNat (Nat.zero_and n)
  | negSucc n => exact congrArg Int.ofNat (zero_ldiff n)

theorem land_flags (a b : Bool) :
    Int.land (boolToFlag a) (boolToFlag b) = boolToFlag (a && b) := by
  cases a with
  | false => exact zero_land _
  | true =>
    cases b with
    | false => exact land_zero _
    | true => rfl

theorem lor_eq_zero (m n : Int) : Int.lor m n = 0 ↔ m = 0 ∧ n = 0 := by
  cases m with
  | ofNat m =>
    cases n with
    | ofNat n =>
      show ((m ||| n : Nat) : Int) = 0 ↔ (m : Int) = 0 ∧ (n : Int) = 0
      rw [Int.natCast_eq_zero, Int.natCast_eq_zero, Int.natCast_eq_zero, Nat.or_eq_zero_iff]
    | negSucc n => exact iff_of_false (Int.negSucc_ne_zero _) fun h => Int.negSucc_ne_zero _ h.2
  | negSucc m =>
    have hRight : Int.lor (Int.negSucc m) n ≠ 0 := by
      cases n <;> exact Int.negSucc_ne_zero _
    exact iff_of_false hRight fun h => Int.negSucc_ne_zero _ h.1

/-- The bitwise `or` of flags is zero when all of them are. -/
theorem foldl_lor_eq_zero (ns : List Int) : ns.foldl Int.lor 0 = 0 ↔ ∀ n ∈ ns, n = 0 := by
  induction ns using List.reverseRecOn with
  | nil => exact iff_of_true rfl fun n hn => nomatch hn
  | append_singleton ns n ih =>
    rw [List.foldl_append, List.foldl_cons, List.foldl_nil, lor_eq_zero, ih]
    simp only [List.mem_append, List.mem_singleton, or_imp, forall_and, forall_eq]

theorem foldl_land_of_zero {ns : List Int} (h : 0 ∈ ns) (init : Int) : ns.foldl Int.land init = 0 := by
  induction ns using List.reverseRecOn with
  | nil => cases h
  | append_singleton ns n ih =>
    rw [List.foldl_append, List.foldl_cons, List.foldl_nil]
    rcases List.mem_append.1 h with hBefore | hLast
    · rw [ih hBefore, zero_land]
    · rw [← List.mem_singleton.1 hLast, land_zero]

section Runs
variable (P : Program α ω) {h : List (Store α)} {c : Val α} {xs : List (Val α)} (xt : α)
  (st : List (Val α)) (fr : List LoopFrame) (w : ω)

/-! By a predicate. -/

theorem tally_run (hc : Holds h c xs) :
    tally P ⟨.other xt :: c :: st, fr, h, w⟩ =
      .ok ⟨.int ((results (verdict P xt) xs w).countP (·.2)) :: st, fr, h,
        visited (verdict P xt) xs w⟩ := by
  simp only [tally, bind2_run, seq_cons, push_run, ok_bind, size_run _ _ _ hc, lit_run]
  refine walk_then _ (fun pre => ⟨.int ((results (verdict P xt) pre w).countP (·.2)) :: st, fr, h,
    visited (verdict P xt) pre w⟩) 0 xs.length ?_ (Nat.zero_add _) (fun pre x hp => ?_) rfl
  · rw [visited_nil, results_nil]
    rfl
  · simp only [Machine.inLoop, Nat.zero_add, seq_cons, seq_nil, index_run, push_run, ok_bind,
      elementAt_item _ _ _ hc hp, call1r_run, ifElse_run, onePlus, int1_run, visited_snoc, results_snoc,
      verdict_run, List.countP_append, List.countP_singleton]
    split <;> rfl

theorem any?_run (hc : Holds h c xs) :
    any? P ⟨.other xt :: c :: st, fr, h, w⟩ =
      .ok ⟨.int (boolToFlag ((results (verdict P xt) xs w).any (·.2))) :: st, fr, h,
        visited (verdict P xt) xs w⟩ := by
  have hPositive : decide ((0 : Int) < ((results (verdict P xt) xs w).countP (·.2) : Nat)) =
      (results (verdict P xt) xs w).any (·.2) := by
    rw [Bool.eq_iff_iff, decide_eq_true_eq, List.any_eq_true, Int.natCast_pos, List.countP_pos_iff]
  simp only [any?, seq_cons, tally_run P xt st fr w hc, ok_bind, lit_run, greaterThan, int2_run,
    hPositive, seq_nil]

/-- The first element that passed, and 0 where none did. -/
def firstPassed (verdicts : List (Val α × Bool)) : Val α :=
  ((verdicts.find? (·.2)).map (·.1)).getD (.int 0)

theorem firstPassed_snoc (verdicts : List (Val α × Bool)) (p : Val α × Bool) :
    firstPassed (verdicts ++ [p]) =
      if verdicts.any (·.2) then firstPassed verdicts
      else if p.2 then p.1 else firstPassed verdicts := by
  rw [firstPassed, List.find?_append, firstPassed]
  split
  case isTrue hAny =>
    obtain ⟨q, hq, hPassed⟩ := List.any_eq_true.1 hAny
    obtain ⟨r, hr⟩ := Option.isSome_iff_exists.1 (List.find?_isSome.2 ⟨q, hq, hPassed⟩)
    rw [hr, Option.some_or]
  case isFalse hNone =>
    have hFind : verdicts.find? (·.2) = none :=
      List.find?_eq_none.2 fun q hq hPassed => hNone (List.any_eq_true.2 ⟨q, hq, hPassed⟩)
    rw [hFind, Option.none_or]
    cases hp : p.2 <;> simp [hp]

theorem zero_flag (b : Bool) : P.zero (.int (boolToFlag b)) = !b := by
  cases b <;> rfl

theorem find_run (hc : Holds h c xs) :
    find P ⟨.other xt :: c :: st, fr, h, w⟩ =
      .ok ⟨.int (boolToFlag ((results (verdict P xt) xs w).any (·.2))) ::
        firstPassed (results (verdict P xt) xs w) :: st, fr, h, visited (verdict P xt) xs w⟩ := by
  simp only [find, bind2_run, seq_cons, push_run, ok_bind, size_run _ _ _ hc, lit_run]
  refine walk_then _ (fun pre => ⟨.int (boolToFlag ((results (verdict P xt) pre w).any (·.2))) ::
    firstPassed (results (verdict P xt) pre w) :: st, fr, h, visited (verdict P xt) pre w⟩) 0 xs.length ?_
    (Nat.zero_add _) (fun pre x hp => ?_) rfl
  · rw [visited_nil, results_nil]
    rfl
  · simp only [Machine.inLoop, Nat.zero_add, seq_cons, index_run, push_run, ok_bind,
      elementAt_item _ _ _ hc hp, dup_run, call1r_run, ifElse_run, over_run, zeroEqual_run, zero_flag,
      truthy_flag, visited_snoc, results_snoc, verdict_run, firstPassed_snoc, List.any_append]
    cases hAny : (results (verdict P xt) pre w).any (·.2) <;>
      cases P.truthy ((P.call1r xt x).run (visited (verdict P xt) pre w)).1 <;>
        simp [boolToFlag]

/-- The integer that a flag is. -/
def cellOf : Val α → Int
  | .int n => n
  | _ => 0

def IsInt (v : Val α) : Prop := ∃ n, v = .int n

theorem bitand_run {v : Val α} (hv : IsInt v) (n : Int) :
    bitand (⟨v :: .int n :: st, fr, h, w⟩ : Machine α ω) =
      .ok ⟨.int (Int.land n (cellOf v)) :: st, fr, h, w⟩ := by
  obtain ⟨m, rfl⟩ := hv
  rfl

theorem bitand_fault {v : Val α} (hv : ¬ IsInt v) (n : Int) :
    bitand (⟨v :: .int n :: st, fr, h, w⟩ : Machine α ω) = .error .notNumber := by
  cases v with
  | int m => exact (hv ⟨m, rfl⟩).elim
  | _ => rfl

/-- The bitwise `and` of the verdicts as they came. -/
def andAll (verdicts : List (Val α)) : Int := (verdicts.map cellOf).foldl Int.land (-1)

theorem andAll_snoc (verdicts : List (Val α)) (v : Val α) :
    andAll (verdicts ++ [v]) = Int.land (andAll verdicts) (cellOf v) := by
  rw [andAll, List.map_append, List.foldl_append]
  rfl

theorem all?_pass (hc : Holds h c xs) {pre : List (Val α)} {x : Val α} (hp : pre ++ [x] <+: xs)
    (hInt : IsInt ((P.call1r xt x).run w).1) (n : Int) :
    seq [index, push c, elementAt, push (.other xt), call1r P, bitand]
        ((⟨.int n :: st, fr, h, w⟩ : Machine α ω).inLoop xs.length (0 + pre.length : Nat)) =
      .ok ((⟨.int (Int.land n (cellOf ((P.call1r xt x).run w).1)) :: st, fr, h,
        ((P.call1r xt x).run w).2⟩ : Machine α ω).inLoop xs.length (0 + pre.length : Nat)) := by
  simp only [Machine.inLoop, Nat.zero_add, seq_cons, seq_nil, index_run, push_run, ok_bind,
    elementAt_item _ _ _ hc hp, call1r_run, bitand_run _ _ _ hInt]

theorem all?_run (hc : Holds h c xs) (hInts : ∀ v ∈ results (P.call1r xt) xs w, IsInt v) :
    all? P ⟨.other xt :: c :: st, fr, h, w⟩ =
      .ok ⟨.int (andAll (results (P.call1r xt) xs w)) :: st, fr, h,
        visited (P.call1r xt) xs w⟩ := by
  simp only [all?, bind2_run, seq_cons, push_run, ok_bind, size_run _ _ _ hc, lit_run]
  refine walk_then _ (fun pre => ⟨.int (andAll (results (P.call1r xt) pre w)) :: st, fr, h,
    visited (P.call1r xt) pre w⟩) 0 xs.length ?_ (Nat.zero_add _) (fun pre x hp => ?_) rfl
  · rw [visited_nil, results_nil]
    rfl
  · rw [visited_snoc, results_snoc, andAll_snoc]
    exact all?_pass P xt st fr _ hc hp (hInts _ (result_mem _ _ hp)) _

/-- A verdict that is no integer stops the word at the element it is about. -/
theorem all?_fault (hc : Holds h c xs) (hInts : ¬ ∀ v ∈ results (P.call1r xt) xs w, IsInt v) :
    all? P ⟨.other xt :: c :: st, fr, h, w⟩ = .error .notNumber := by
  obtain ⟨before, x, hItem, hBefore, hLast⟩ := exists_first_result hInts
  simp only [all?, bind2_run, seq_cons, push_run, ok_bind, size_run _ _ _ hc, lit_run]
  refine walk_fault_then (fun pre => ⟨.int (andAll (results (P.call1r xt) pre w)) :: st, fr, h,
    visited (P.call1r xt) pre w⟩) 0 xs.length ?_ (Nat.zero_add _) hItem (fun pre y hp => ?_) ?_
  · rw [visited_nil, results_nil]
    rfl
  · rw [visited_snoc, results_snoc, andAll_snoc]
    exact all?_pass P xt st fr _ hc (hp.trans (prefix_snoc hItem)) (hBefore _ (result_mem _ _ hp)) _
  · simp only [Machine.inLoop, Nat.zero_add, seq_cons, index_run, push_run, ok_bind,
      elementAt_item _ _ _ hc hItem, call1r_run, bitand_fault _ _ _ hLast, error_bind]

/-! By equality. -/

@[simp] theorem equals?_run (a b : Val α) :
    equals? P ⟨b :: a :: st, fr, h, w⟩ =
      .ok ⟨.int ((P.equals a b).run w).1 :: st, fr, h, ((P.equals a b).run w).2⟩ := rfl

theorem member?_run (hc : Holds h c xs) (x : Val α) :
    member? P ⟨c :: x :: st, fr, h, w⟩ =
      .ok ⟨.int ((results (P.equals x) xs w).foldl Int.lor 0) :: st, fr, h,
        visited (P.equals x) xs w⟩ := by
  simp only [member?, bind2_run, seq_cons, push_run, ok_bind, size_run _ _ _ hc, lit_run]
  refine walk_then _ (fun pre => ⟨.int ((results (P.equals x) pre w).foldl Int.lor 0) :: st, fr, h,
    visited (P.equals x) pre w⟩) 0 xs.length ?_ (Nat.zero_add _) (fun pre y hp => ?_) rfl
  · rw [visited_nil, results_nil]
    rfl
  · simp only [Machine.inLoop, Nat.zero_add, seq_cons, seq_nil, index_run, push_run, ok_bind,
      elementAt_item _ _ _ hc hp, equals?_run, bitor, int2_run, visited_snoc, results_snoc,
      List.foldl_append, List.foldl_cons, List.foldl_nil]

/-- The index of the first verdict that is true, and 0 where none is. -/
def firstIndex (verdicts : List Int) : Nat := (verdicts.findIdx? (· != 0)).getD 0

theorem firstIndex_snoc (verdicts : List Int) (n : Int) :
    firstIndex (verdicts ++ [n]) =
      if verdicts.any (· != 0) then firstIndex verdicts
      else if n != 0 then verdicts.length else firstIndex verdicts := by
  rw [firstIndex, List.findIdx?_append, firstIndex]
  split
  case isTrue hAny =>
    have hSome : (verdicts.findIdx? (· != 0)).isSome = true := by rw [List.findIdx?_isSome, hAny]
    obtain ⟨i, hi⟩ := Option.isSome_iff_exists.1 hSome
    rw [hi, Option.some_or]
  case isFalse hNone =>
    have hFind : verdicts.findIdx? (· != 0) = none :=
      List.findIdx?_eq_none_iff.2 fun q hq => by
        rw [List.any_eq_true] at hNone
        exact Bool.eq_false_iff.2 fun hTrue => hNone ⟨q, hq, hTrue⟩
    rw [hFind, Option.none_or, List.findIdx?_cons]
    split
    · rw [Option.map_some, Option.getD_some, Nat.zero_add]
    · rfl

theorem indexOf_run (hc : Holds h c xs) (x : Val α) :
    indexOf P ⟨c :: x :: st, fr, h, w⟩ =
      .ok ⟨.int (boolToFlag ((results (P.equals x) xs w).any (· != 0))) ::
        .int (firstIndex (results (P.equals x) xs w)) :: st, fr, h, visited (P.equals x) xs w⟩ := by
  simp only [indexOf, bind2_run, seq_cons, push_run, ok_bind, size_run _ _ _ hc, lit_run]
  refine walk_then _ (fun pre => ⟨.int (boolToFlag ((results (P.equals x) pre w).any (· != 0))) ::
    .int (firstIndex (results (P.equals x) pre w)) :: st, fr, h, visited (P.equals x) pre w⟩) 0
    xs.length ?_ (Nat.zero_add _) (fun pre y hp => ?_) rfl
  · rw [visited_nil, results_nil]
    rfl
  · have hTruthy : ∀ n : Int, P.truthy (.int n) = (n != 0) := fun n => rfl
    simp only [Machine.inLoop, Nat.zero_add, seq_cons, index_run, push_run, ok_bind,
      elementAt_item _ _ _ hc hp, equals?_run, ifElse_run, dup_run, zeroEqual_run, zero_flag, hTruthy,
      visited_snoc, results_snoc, firstIndex_snoc, List.any_append, length_results]
    cases hAny : (results (P.equals x) pre w).any (· != 0) <;>
      cases hFound : ((P.equals x y).run (visited (P.equals x) pre w)).1 != 0 <;>
        simp [boolToFlag, hFound]

/-! By order. -/

/-- The comparison of two neighbours. -/
def neighbours (p : Val α × Val α) : StateM ω Int := P.cmp p.1 p.2

def notInverted (verdicts : List Int) : Bool := verdicts.all fun n => decide (n ≤ 0)

theorem sorted?_run (hc : Holds h c xs) (hne : xs ≠ []) :
    sorted? P ⟨c :: st, fr, h, w⟩ =
      .ok ⟨.int (boolToFlag (notInverted (results (neighbours P) (xs.zip xs.tail) w))) :: st, fr, h,
        visited (neighbours P) (xs.zip xs.tail) w⟩ := by
  have hPos := List.length_pos_iff.2 hne
  simp only [sorted?, bind1_run, seq_cons, push_run, ok_bind, size_run _ _ _ hc, lit_run]
  refine walk_then (xs.zip xs.tail) (fun pre =>
    ⟨.int (boolToFlag (notInverted (results (neighbours P) pre w))) :: st, fr, h,
      visited (neighbours P) pre w⟩) 1 xs.length ?_ ?_ (fun pre p hp => ?_) rfl
  · rw [visited_nil, results_nil]
    rfl
  · rw [List.length_zip, List.length_tail]
    omega
  · obtain ⟨hFirst, hSecond⟩ := List.getElem?_zip_eq_some.1 (getElem?_of_snoc hp)
    rw [List.getElem?_tail] at hSecond
    obtain ⟨hLess, hLeft⟩ := List.getElem?_eq_some_iff.1 hFirst
    obtain ⟨hNext, hRight⟩ := List.getElem?_eq_some_iff.1 hSecond
    have hBack : ((pre.length + 1 : Nat) : Int) - 1 = (pre.length : Nat) := by omega
    have hHere : 1 + pre.length = pre.length + 1 := Nat.add_comm _ _
    have hVerdict : ∀ n : Int, P.zero (.int (boolToFlag (decide (0 < n)))) = decide (n ≤ 0) := by
      intro n
      rw [zero_flag, ← decide_not]
      exact decide_eq_decide.2 Int.not_lt
    simp only [Machine.inLoop, seq_cons, seq_nil, index_run, push_run, ok_bind, oneMinus, int1_run, hBack,
      elementAt_run _ _ _ hc hLess, hHere, elementAt_run _ _ _ hc hNext, cmp_run, zeroGreater,
      zeroEqual_run, hVerdict, bitand, int2_run, land_flags, visited_snoc, results_snoc, neighbours,
      notInverted, List.all_append, List.all_cons, List.all_nil, Bool.and_true, hLeft, hRight]

theorem sorted?_empty (hc : Holds h c []) : sorted? P ⟨c :: st, fr, h, w⟩ = .error .bounds := by
  simp only [sorted?, bind1_run, seq_cons, push_run, ok_bind, size_run _ _ _ hc, lit_run]
  refine qdo_fault_then ⟨.int (-1) :: st, fr, h, w⟩ (0 : Nat) (1 : Nat) rfl (by omega) ?_
  have hAt := elementAt_empty (.int (-1) :: st) (⟨(0 : Nat), (1 : Nat), false⟩ :: fr) w hc 0
  simp only [Machine.inLoop, seq_cons, index_run, push_run, ok_bind, oneMinus, int1_run]
  exact congrArg (· >>= seq _) hAt

end Runs
end FactorForth.Correctness
