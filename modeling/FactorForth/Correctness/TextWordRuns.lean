import FactorForth.Correctness.StreamWords
import FactorForth.Protocols.TextWords
import Mathlib.Data.List.DropRight

/-! How the text words run. -/

namespace FactorForth.Correctness
open FactorForth.Library FactorForth.Protocols
open FactorForth.Semantics (LoopFrame)
variable {α ω : Type}

/-- Space, tab, line feed and carriage return. -/
def isWhite (c : Int) : Bool := c == 32 || c == 9 || c == 10 || c == 13

theorem lor_flags (a b : Bool) : Int.lor (boolToFlag a) (boolToFlag b) = boolToFlag (a || b) := by
  cases a with
  | false =>
    cases b with
    | false => rfl
    | true => exact congrArg Int.negSucc (zero_ldiff 0)
  | true =>
    cases b with
    | false => exact congrArg Int.negSucc (zero_ldiff 0)
    | true => rfl

/-! Trimmed texts. -/

section Trimmed
variable (p : Int → Bool)

theorem drop_takeWhile (cs : List Int) : cs.drop (cs.takeWhile p).length = cs.dropWhile p := by
  have hSplit := List.takeWhile_append_dropWhile (p := p) (l := cs)
  calc cs.drop (cs.takeWhile p).length
      = (cs.takeWhile p ++ cs.dropWhile p).drop (cs.takeWhile p).length := by rw [hSplit]
    _ = cs.dropWhile p := List.drop_left

/-- What ends the run from the right ends it in front of anything. -/
theorem rdropWhile_append (front : List Int) {behind : List Int} (h : ∃ c ∈ behind, p c = false) :
    (front ++ behind).rdropWhile p = front ++ behind.rdropWhile p := by
  induction behind using List.reverseRecOn with
  | nil =>
    obtain ⟨c, hc, -⟩ := h
    exact absurd hc List.not_mem_nil
  | append_singleton behind d ih =>
    rw [← List.append_assoc]
    by_cases hd : p d = true
    · rw [List.rdropWhile_concat_pos _ _ _ hd, List.rdropWhile_concat_pos _ _ _ hd]
      obtain ⟨c, hc, hNot⟩ := h
      rcases List.mem_append.mp hc with hc | hc
      · exact ih ⟨c, hc, hNot⟩
      · rw [List.mem_singleton.mp hc, hd] at hNot
        cases hNot
    · rw [List.rdropWhile_concat_neg _ _ _ hd, List.rdropWhile_concat_neg _ _ _ hd, List.append_assoc]

/-- The part between the two cursors, which have crossed where all is to go. -/
theorem trimmed_part (cs : List Int) :
    ((cs.rdropWhile p).length < (cs.takeWhile p).length → (cs.dropWhile p).rdropWhile p = []) ∧
      ((cs.takeWhile p).length ≤ (cs.rdropWhile p).length →
        (cs.drop (cs.takeWhile p).length).take ((cs.rdropWhile p).length - (cs.takeWhile p).length) =
          (cs.dropWhile p).rdropWhile p) := by
  rw [drop_takeWhile]
  by_cases hAll : ∀ c ∈ cs, p c = true
  · have hNone : cs.dropWhile p = [] := List.dropWhile_eq_nil_iff.mpr hAll
    rw [hNone, List.rdropWhile_nil, List.take_nil]
    exact ⟨fun _ => rfl, fun _ => rfl⟩
  · obtain ⟨c, hc, hNot⟩ : ∃ c ∈ cs, p c = false := by simpa using hAll
    have hSplit := List.takeWhile_append_dropWhile (p := p) (l := cs)
    have hKept : ∃ c ∈ cs.dropWhile p, p c = false := by
      rw [← hSplit] at hc
      rcases List.mem_append.mp hc with hc | hc
      · have hTaken := List.mem_takeWhile_imp hc
        rw [hNot] at hTaken
        cases hTaken
      · exact ⟨c, hc, hNot⟩
    have hEnd : cs.rdropWhile p = cs.takeWhile p ++ (cs.dropWhile p).rdropWhile p := by
      rw [← rdropWhile_append p _ hKept, hSplit]
    have hLength := congrArg List.length hEnd
    rw [List.length_append] at hLength
    have hPrefix := List.rdropWhile_prefix p (cs.dropWhile p)
    refine ⟨fun hCrossed => absurd hCrossed (by omega), fun _ => ?_⟩
    rw [hLength, Nat.add_sub_cancel_left, ← List.prefix_iff_eq_take.mp hPrefix]

end Trimmed

section Runs
variable {P : TextProgram α ω} {h : List (Store (Obj α))} (st : List (Val (Obj α))) (fr : List LoopFrame)
  (w : Returns α ω)

theorem charAt_run {s : Val (Obj α)} {cs : List Int} (hs : Holds h s (cs.map .int)) {k : Nat} {c : Int}
    (hk : cs[k]? = some c) :
    elementAt (⟨s :: .int k :: st, fr, h, w⟩ : Machine (Obj α) (Returns α ω)) =
      .ok ⟨.int c :: st, fr, h, w⟩ := by
  obtain ⟨hLess, rfl⟩ := List.getElem?_eq_some_iff.mp hk
  have hMap : k < (cs.map (Val.int : Int → Val (Obj α))).length := by rwa [List.length_map]
  rw [elementAt_run _ _ _ hs hMap, List.getElem_map]

/-! Writing a new string. -/

section Writing
variable {src : Val (Obj α)} {cs : List Int} (ys : List (Val (Obj α))) (rest : List (Store (Obj α)))
  (hSrc : ∀ ys, Holds (h ++ .rawvec ys :: rest) src (cs.map .int))

include hSrc in
theorem copy_run {lo hi : Nat} (hLo : lo ≤ hi) (hHi : hi ≤ cs.length) :
    qdoLoop [index, push src, elementAt, push (.string (.darray h.length)), stringPush]
        (⟨.int lo :: .int hi :: st, fr, h ++ .rawvec ys :: rest, w⟩ : Machine (Obj α) (Returns α ω)) =
      .ok ⟨st, fr, h ++ .rawvec (ys ++ ((cs.drop lo).take (hi - lo)).map .int) :: rest, w⟩ := by
  have hWalk := @walk_run (Obj α) (Returns α ω)
    [index, push src, elementAt, push (.string (.darray h.length)), stringPush] Int
    ((cs.drop lo).take (hi - lo)) (fun pre => ⟨st, fr, h ++ .rawvec (ys ++ pre.map .int) :: rest, w⟩) lo hi
    (by rw [List.length_take, List.length_drop]; omega)
    (fun pre x hp => ?_)
  · simp only [List.map_nil, List.append_nil] at hWalk
    exact hWalk
  · have hAt : cs[lo + pre.length]? = some x := by
      rw [← List.getElem?_drop]
      exact getElem?_of_snoc (hp.trans (List.take_prefix _ _))
    simp only [Machine.inLoop, seq_cons, seq_nil, index_run, push_run, ok_bind,
      charAt_run _ _ _ (hSrc _) hAt, stringPush_here, List.map_append, List.append_assoc]
    rfl

theorem fill_run (ch : Val (Obj α)) (n : Nat) :
    qdoLoop [push ch, push (.string (.darray h.length)), stringPush]
        (⟨.int 0 :: .int n :: st, fr, h ++ .rawvec ys :: rest, w⟩ : Machine (Obj α) (Returns α ω)) =
      .ok ⟨st, fr, h ++ .rawvec (ys ++ List.replicate n ch) :: rest, w⟩ := by
  have hRun := @qdoLoop_run (Obj α) (Returns α ω) [push ch, push (.string (.darray h.length)), stringPush]
    (fun i => ⟨st, fr, h ++ .rawvec (ys ++ List.replicate i ch) :: rest, w⟩) 0 n (Nat.zero_le n)
    (fun i _ _ => ?_)
  · simp only [List.replicate_zero, List.append_nil] at hRun
    exact hRun
  · simp only [Machine.inLoop, seq_cons, seq_nil, push_run, ok_bind, stringPush_here, List.append_assoc,
      List.replicate_succ']

include hSrc in
theorem copyChars_run :
    seq (copyChars src (.string (.darray h.length)))
        (⟨st, fr, h ++ .rawvec ys :: rest, w⟩ : Machine (Obj α) (Returns α ω)) =
      .ok ⟨st, fr, h ++ .rawvec (ys ++ cs.map .int) :: rest, w⟩ := by
  have hCopy := copy_run st fr w ys rest hSrc (Nat.zero_le _) (Nat.le_refl cs.length)
  rw [Nat.sub_zero, List.drop_zero, List.take_length] at hCopy
  simp only [Int.natCast_zero] at hCopy
  simp only [copyChars, seq_cons, push_run, ok_bind, size_run _ _ _ (hSrc _), List.length_map, lit_run,
    hCopy, seq_nil]

end Writing

theorem subseq_run {s : Val (Obj α)} {cs : List Int} (hs : Holds h s (cs.map .int)) {lo hi : Nat}
    (hLo : lo ≤ hi) (hHi : hi ≤ cs.length) :
    subseq (⟨.int hi :: .int lo :: s :: st, fr, h, w⟩ : Machine (Obj α) (Returns α ω)) =
      .ok ⟨.string (.darray h.length) :: st, fr,
        h ++ [.rawvec (((cs.drop lo).take (hi - lo)).map .int)], w⟩ := by
  have hCopy := copy_run st fr w [] [] (fun ys => hs.append _) hLo hHi
  rw [List.nil_append] at hCopy
  simp only [subseq, bind3_run, seq_cons, newString_run, ok_bind, bind1_run, push_run, hCopy, seq_nil]

/-! White space. -/

theorem whitespaceChar?_run (hP : Plain P) (c : Int) :
    whitespaceChar? P ⟨.int c :: st, fr, h, w⟩ = .ok ⟨.int (boolToFlag (isWhite c)) :: st, fr, h, w⟩ := by
  simp only [whitespaceChar?, seq_cons, dup_run, ok_bind, lit_run, equal_run, hP.same_int, over_run, bitor,
    int2_run, lor_flags, swap_run, seq_nil]
  rfl

section White
variable (hP : Plain P) {s : Val (Obj α)} {cs : List Int} (hs : Holds h s (cs.map .int))
include hP hs

theorem skipWsLeft_loop (later : List Int) : ∀ (done : List Int) (fuel : Nat), cs = done ++ later →
    later.length < fuel →
    whileLoop P
        [dup, push s, size, lessThan, ifElse P [dup, push s, elementAt, whitespaceChar? P] [lit 0]]
        [onePlus] fuel ⟨.int done.length :: st, fr, h, w⟩ =
      .ok ⟨.int (done.length + (later.takeWhile isWhite).length : Nat) :: st, fr, h, w⟩ := by
  induction later with
  | nil =>
    intro done fuel hcs hFuel
    obtain ⟨fuel, rfl⟩ := Nat.exists_eq_add_of_le' hFuel
    rw [List.append_nil] at hcs
    subst hcs
    have hNo : P.truthy (.int (boolToFlag (decide ((cs.length : Int) < cs.length)))) = false := by
      rw [truthy_flag]
      exact decide_eq_false (Int.lt_irrefl _)
    refine whileLoop_end ?_ (rfl : P.truthy (.int 0) = false) fuel
    simp only [seq_cons, dup_run, ok_bind, push_run, size_run _ _ _ hs, List.length_map, lessThan, int2_run,
      ifElse_run, hNo, Bool.false_eq_true, if_false, lit_run, seq_nil]
    rfl
  | cons c later ih =>
    intro done fuel hcs hFuel
    obtain ⟨fuel, rfl⟩ : ∃ less, fuel = less + 1 := ⟨fuel - 1, by omega⟩
    rw [List.length_cons] at hFuel
    have hAt : cs[done.length]? = some c := hcs ▸ getElem?_here done later c
    have hYes : P.truthy (.int (boolToFlag (decide ((done.length : Int) < cs.length)))) = true := by
      rw [truthy_flag, hcs, List.length_append, List.length_cons, decide_eq_true (by omega)]
    have hPred : seq [dup, push s, size, lessThan,
        ifElse P [dup, push s, elementAt, whitespaceChar? P] [lit 0]] ⟨.int done.length :: st, fr, h, w⟩ =
        .ok ⟨.int (boolToFlag (isWhite c)) :: .int done.length :: st, fr, h, w⟩ := by
      simp only [seq_cons, dup_run, ok_bind, push_run, size_run _ _ _ hs, List.length_map, lessThan,
        int2_run, ifElse_run, hYes, if_true, charAt_run _ _ _ hs hAt, whitespaceChar?_run _ _ _ hP, seq_nil]
    by_cases hWhite : isWhite c = true
    · have hNext : cs = (done ++ [c]) ++ later := by rw [hcs, List.append_assoc, List.singleton_append]
      have hDone : (done ++ [c]).length = done.length + 1 := by
        rw [List.length_append, List.length_singleton]
      have hRest := ih (done ++ [c]) fuel hNext (by omega)
      rw [hDone, Nat.add_assoc, Nat.add_comm 1] at hRest
      rw [List.takeWhile_cons_of_pos hWhite, List.length_cons]
      refine (whileLoop_next hPred ((truthy_flag P _).trans hWhite) rfl fuel).trans hRest
    · rw [List.takeWhile_cons_of_neg hWhite]
      exact whileLoop_end hPred ((truthy_flag P _).trans (Bool.eq_false_iff.mpr hWhite)) fuel

theorem skipWsLeft_run {fuel : Nat} (hFuel : cs.length < fuel) :
    skipWsLeft P fuel ⟨.int 0 :: s :: st, fr, h, w⟩ =
      .ok ⟨.int (cs.takeWhile isWhite).length :: st, fr, h, w⟩ := by
  have hLoop := skipWsLeft_loop st fr w hP hs cs [] fuel rfl hFuel
  simp only [List.length_nil, Nat.zero_add, Int.natCast_zero] at hLoop
  simp only [skipWsLeft, bind2_run, seq_cons, push_run, ok_bind, hLoop, seq_nil]

theorem skipWsRight_loop (front : List Int) : ∀ (behind : List Int) (fuel : Nat), cs = front ++ behind →
    front.length < fuel →
    whileLoop P
        [dup, lit 0, greaterThan, ifElse P [dup, oneMinus, push s, elementAt, whitespaceChar? P] [lit 0]]
        [oneMinus] fuel ⟨.int front.length :: st, fr, h, w⟩ =
      .ok ⟨.int (front.rdropWhile isWhite).length :: st, fr, h, w⟩ := by
  induction front using List.reverseRecOn with
  | nil =>
    intro behind fuel hcs hFuel
    obtain ⟨fuel, rfl⟩ := Nat.exists_eq_add_of_le' hFuel
    exact whileLoop_end rfl (rfl : P.truthy (.int 0) = false) fuel
  | append_singleton front c ih =>
    intro behind fuel hcs hFuel
    have hLength : (front ++ [c]).length = front.length + 1 := by
      rw [List.length_append, List.length_singleton]
    rw [hLength] at hFuel ⊢
    obtain ⟨fuel, rfl⟩ : ∃ less, fuel = less + 1 := ⟨fuel - 1, by omega⟩
    rw [List.append_assoc, List.singleton_append] at hcs
    have hAt : cs[front.length]? = some c := by
      rw [hcs, List.getElem?_append_right le_rfl, Nat.sub_self]
      rfl
    have hBack : ((front.length + 1 : Nat) : Int) - 1 = (front.length : Nat) := by omega
    have hYes : P.truthy (.int (boolToFlag (decide ((0 : Int) < (front.length + 1 : Nat))))) = true := by
      rw [truthy_flag]
      exact decide_eq_true (by omega)
    have hPred : seq [dup, lit 0, greaterThan,
        ifElse P [dup, oneMinus, push s, elementAt, whitespaceChar? P] [lit 0]]
          ⟨.int (front.length + 1 : Nat) :: st, fr, h, w⟩ =
        .ok ⟨.int (boolToFlag (isWhite c)) :: .int (front.length + 1 : Nat) :: st, fr, h, w⟩ := by
      simp only [seq_cons, dup_run, ok_bind, lit_run, greaterThan, int2_run, ifElse_run, hYes, if_true,
        oneMinus, int1_run, hBack, push_run, charAt_run _ _ _ hs hAt, whitespaceChar?_run _ _ _ hP, seq_nil]
    by_cases hWhite : isWhite c = true
    · have hBody : seq [oneMinus] (⟨.int (front.length + 1 : Nat) :: st, fr, h, w⟩ :
          Machine (Obj α) (Returns α ω)) = .ok ⟨.int front.length :: st, fr, h, w⟩ := by
        simp only [seq_cons, oneMinus, int1_run, hBack, ok_bind, seq_nil]
      rw [List.rdropWhile_concat_pos _ _ _ hWhite,
        whileLoop_next hPred ((truthy_flag P _).trans hWhite) hBody]
      exact ih (c :: behind) fuel hcs (by omega)
    · rw [List.rdropWhile_concat_neg _ _ _ hWhite, hLength]
      exact whileLoop_end hPred ((truthy_flag P _).trans (Bool.eq_false_iff.mpr hWhite)) fuel

theorem skipWsRight_run {fuel : Nat} (hFuel : cs.length < fuel) :
    skipWsRight P fuel ⟨.int cs.length :: s :: st, fr, h, w⟩ =
      .ok ⟨.int (cs.rdropWhile isWhite).length :: st, fr, h, w⟩ := by
  have hLoop := skipWsRight_loop st fr w hP hs cs [] fuel (List.append_nil cs).symm hFuel
  simp only [skipWsRight, bind2_run, seq_cons, push_run, ok_bind, hLoop, seq_nil]

theorem trimLeft_run {fuel : Nat} (hFuel : cs.length < fuel) :
    trimLeft P fuel ⟨s :: st, fr, h, w⟩ =
      .ok ⟨.string (.darray h.length) :: st, fr, h ++ [.rawvec ((cs.dropWhile isWhite).map .int)], w⟩ := by
  have hStart := (List.takeWhile_prefix (l := cs) isWhite).length_le
  have hPart := subseq_run st fr w hs hStart (Nat.le_refl cs.length)
  rw [List.take_of_length_le (by rw [List.length_drop]), drop_takeWhile] at hPart
  simp only [trimLeft, bind1_run, seq_cons, push_run, lit_run, ok_bind,
    skipWsLeft_run _ _ _ hP hs hFuel, size_run _ _ _ hs, List.length_map, hPart, seq_nil]

theorem trimRight_run {fuel : Nat} (hFuel : cs.length < fuel) :
    trimRight P fuel ⟨s :: st, fr, h, w⟩ =
      .ok ⟨.string (.darray h.length) :: st, fr, h ++ [.rawvec ((cs.rdropWhile isWhite).map .int)], w⟩ := by
  have hPrefix := List.rdropWhile_prefix isWhite cs
  have hPart := subseq_run st fr w hs (Nat.zero_le _) hPrefix.length_le
  rw [List.drop_zero, Nat.sub_zero, ← List.prefix_iff_eq_take.mp hPrefix] at hPart
  simp only [Int.natCast_zero] at hPart
  simp only [trimRight, bind1_run, seq_cons, push_run, lit_run, ok_bind,
    skipWsRight_run _ _ _ hP hs hFuel, size_run _ _ _ hs, List.length_map, hPart, seq_nil]

/-- The empty text and a text of white space only are treated apart. -/
theorem trim_run {fuel : Nat} (hFuel : cs.length < fuel) :
    trim P fuel ⟨s :: st, fr, h, w⟩ = .ok ⟨.string (.darray h.length) :: st, fr,
      h ++ [.rawvec (((cs.dropWhile isWhite).rdropWhile isWhite).map .int)], w⟩ := by
  simp only [trim, bind1_run, seq_cons, push_run, lit_run, ok_bind, skipWsLeft_run _ _ _ hP hs hFuel,
    size_run _ _ _ hs, List.length_map, skipWsRight_run _ _ _ hP hs hFuel, lessThan, int2_run, ifElse_run,
    truthy_flag]
  obtain ⟨hCrossed, hPart⟩ := trimmed_part isWhite cs
  by_cases hLess : (cs.rdropWhile isWhite).length < (cs.takeWhile isWhite).length
  · rw [if_pos (decide_eq_true (Int.ofNat_lt.mpr hLess)), hCrossed hLess]
    simp only [newString_run, ok_bind, seq_nil]
    rfl
  · have hNot : ¬ decide (((cs.rdropWhile isWhite).length : Int) < (cs.takeWhile isWhite).length) = true := by
      rw [decide_eq_true_eq]
      omega
    have hSub := subseq_run st fr w hs (Nat.le_of_not_lt hLess)
      (List.rdropWhile_prefix isWhite cs).length_le
    rw [hPart (Nat.le_of_not_lt hLess)] at hSub
    rw [if_neg hNot]
    simp only [ok_bind, hSub, seq_nil]

end White

/-! Parts of a text. -/

theorem zip_all_eq (ts cs : List Int) (h : ts.length ≤ cs.length) :
    (ts.zip cs).all (fun x => decide (x.1 = x.2)) = decide (ts <+: cs) := by
  induction ts generalizing cs with
  | nil => exact (decide_eq_true (List.nil_prefix)).symm
  | cons t ts ih =>
    cases cs with
    | nil => exact absurd h (Nat.not_succ_le_zero _)
    | cons c cs =>
      rw [List.zip_cons_cons, List.all_cons, ih cs (Nat.le_of_succ_le_succ h), ← Bool.decide_and]
      exact decide_eq_decide.mpr List.cons_prefix_cons.symm

/-- The offsets that `contains?` tries are all that the needle fits at. -/
theorem infix_iff_offset (ts cs : List Int) : ts <:+: cs ↔
    ∃ i < cs.length + 1 - ts.length, i + ts.length ≤ cs.length ∧ ts <+: cs.drop i := by
  constructor
  · rintro ⟨front, behind, rfl⟩
    refine ⟨front.length, ?_, ?_, ?_⟩
    · simp only [List.length_append]
      omega
    · simp only [List.length_append]
      omega
    · rw [List.append_assoc, List.drop_left]
      exact List.prefix_append _ _
  · rintro ⟨i, -, -, hPrefix⟩
    exact hPrefix.isInfix.trans (List.drop_suffix i cs).isInfix

section Parts
variable (hP : Plain P) {s t : Val (Obj α)} {cs ts : List Int} (hs : Holds h s (cs.map .int))
  (ht : Holds h t (ts.map .int))
include hP hs ht

theorem substringAt?_run (pos : Nat) :
    substringAt? P ⟨t :: .int pos :: s :: st, fr, h, w⟩ =
      .ok ⟨.int (boolToFlag (decide (pos + ts.length ≤ cs.length ∧ ts <+: cs.drop pos))) :: st, fr, h, w⟩ := by
  simp only [substringAt?, bind3_run, seq_cons, push_run, ok_bind, size_run _ _ _ ht, size_run _ _ _ hs,
    List.length_map, plus, int2_run, greaterThan, ifElse_run, truthy_flag]
  by_cases hFits : pos + ts.length ≤ cs.length
  · have hNot : ¬ decide ((cs.length : Int) < pos + ts.length) = true := by
      rw [decide_eq_true_eq]
      omega
    have hLength : (ts.zip (cs.drop pos)).length = ts.length := by
      rw [List.length_zip, List.length_drop]
      omega
    have hWhole : decide (pos + ts.length ≤ cs.length ∧ ts <+: cs.drop pos) =
        (ts.zip (cs.drop pos)).all fun x => decide (x.1 = x.2) := by
      rw [zip_all_eq _ _ (by rw [List.length_drop]; omega)]
      exact decide_eq_decide.mpr (and_iff_right hFits)
    rw [if_neg hNot, hWhole]
    simp only [seq_cons, push_run, ok_bind, size_run _ _ _ ht, List.length_map, lit_run]
    rw [bind_seq_nil]
    refine walk_then (ts.zip (cs.drop pos)) (fun pre =>
      ⟨.int (boolToFlag (pre.all fun x => decide (x.1 = x.2))) :: st, fr, h, w⟩) 0 ts.length rfl
      ((Nat.zero_add _).trans hLength) (fun pre x hp => ?_) rfl
    obtain ⟨hLeft, hRight⟩ := List.getElem?_zip_eq_some.mp (getElem?_of_snoc hp)
    rw [List.getElem?_drop] at hRight
    have hIndex : ((pre.length : Nat) : Int) + (pos : Nat) = (pos + pre.length : Nat) := by omega
    simp only [Machine.inLoop, Nat.zero_add, seq_cons, seq_nil, index_run, push_run, ok_bind,
      charAt_run _ _ _ ht hLeft, int2_run, hIndex, charAt_run _ _ _ hs hRight, equal_run, hP.same_int,
      bitand, land_flags, List.all_append, List.all_cons, List.all_nil, Bool.and_true]
  · have hOver : decide ((cs.length : Int) < pos + ts.length) = true := decide_eq_true (by omega)
    have hNo : decide (pos + ts.length ≤ cs.length ∧ ts <+: cs.drop pos) = false :=
      decide_eq_false fun hBoth => hFits hBoth.1
    rw [if_pos hOver, hNo]
    rfl

theorem startsWith?_run :
    startsWith? P ⟨t :: s :: st, fr, h, w⟩ =
      .ok ⟨.int (boolToFlag (decide (ts <+: cs))) :: st, fr, h, w⟩ := by
  have hRun := substringAt?_run st fr w hP hs ht 0
  have hSame : decide (0 + ts.length ≤ cs.length ∧ ts <+: cs.drop 0) = decide (ts <+: cs) := by
    rw [Nat.zero_add, List.drop_zero]
    exact decide_eq_decide.mpr (and_iff_right_of_imp List.IsPrefix.length_le)
  rw [hSame, Int.natCast_zero] at hRun
  simp only [startsWith?, bind2_run, seq_cons, push_run, lit_run, ok_bind, hRun, seq_nil]

theorem endsWith?_run :
    endsWith? P ⟨t :: s :: st, fr, h, w⟩ =
      .ok ⟨.int (boolToFlag (decide (ts <:+ cs))) :: st, fr, h, w⟩ := by
  simp only [endsWith?, bind2_run, seq_cons, push_run, ok_bind, size_run _ _ _ ht, size_run _ _ _ hs,
    List.length_map, minus, int2_run, bind1_run, lit_run, lessThan, ifElse_run, truthy_flag]
  by_cases hFits : ts.length ≤ cs.length
  · have hNot : ¬ decide ((cs.length : Int) - ts.length < 0) = true := by
      rw [decide_eq_true_eq]
      omega
    have hOff : (cs.length : Int) - ts.length = (cs.length - ts.length : Nat) := by omega
    have hSame : decide (cs.length - ts.length + ts.length ≤ cs.length ∧
        ts <+: cs.drop (cs.length - ts.length)) = decide (ts <:+ cs) := by
      refine decide_eq_decide.mpr ⟨fun hBoth => ?_, fun hSuffix => ⟨by omega, ?_⟩⟩
      · have hEq : ts = cs.drop (cs.length - ts.length) :=
          hBoth.2.eq_of_length (by rw [List.length_drop]; omega)
        rw [hEq]
        exact List.drop_suffix _ _
      · rw [← List.suffix_iff_eq_drop.mp hSuffix]
    have hRun := substringAt?_run st fr w hP hs ht (cs.length - ts.length)
    rw [hSame] at hRun
    rw [if_neg hNot, hOff]
    simp only [ok_bind, hRun, seq_nil]
  · have hOver : decide ((cs.length : Int) - ts.length < 0) = true := decide_eq_true (by omega)
    have hNo : decide (ts <:+ cs) = false := decide_eq_false fun hSuffix => hFits hSuffix.length_le
    rw [if_pos hOver, hNo]
    rfl

theorem contains?_run :
    contains? P ⟨t :: s :: st, fr, h, w⟩ =
      .ok ⟨.int (boolToFlag (decide (ts <:+: cs))) :: st, fr, h, w⟩ := by
  simp only [contains?, bind2_run, seq_cons, push_run, ok_bind, size_run _ _ _ ht, size_run _ _ _ hs,
    List.length_map, greaterThan, int2_run, ifElse_run, truthy_flag]
  by_cases hFits : ts.length ≤ cs.length
  · have hNot : ¬ decide ((cs.length : Int) < ts.length) = true := by
      rw [decide_eq_true_eq]
      omega
    have hCount : (cs.length : Int) - ts.length + 1 = (cs.length + 1 - ts.length : Nat) := by omega
    have hWhole : decide (ts <:+: cs) = (List.range (cs.length + 1 - ts.length)).any fun i =>
        decide (i + ts.length ≤ cs.length ∧ ts <+: cs.drop i) := by
      rw [Bool.eq_iff_iff, decide_eq_true_eq, infix_iff_offset, List.any_eq_true]
      simp only [List.mem_range, decide_eq_true_eq]
    rw [if_neg hNot, hWhole]
    simp only [seq_cons, push_run, ok_bind, size_run _ _ _ ht, size_run _ _ _ hs, List.length_map, lit_run,
      minus, int2_run, onePlus, int1_run, hCount]
    rw [bind_seq_nil]
    refine walk_then (List.range (cs.length + 1 - ts.length)) (fun pre =>
      ⟨.int (boolToFlag (pre.any fun i => decide (i + ts.length ≤ cs.length ∧ ts <+: cs.drop i))) :: st, fr,
        h, w⟩) 0 (cs.length + 1 - ts.length) rfl (by rw [Nat.zero_add, List.length_range])
      (fun pre i hp => ?_) rfl
    have hIndex : pre.length = i := by
      have hAt := getElem?_of_snoc hp
      rw [List.getElem?_eq_some_iff] at hAt
      obtain ⟨hLess, hAt⟩ := hAt
      rwa [List.getElem_range] at hAt
    have hSub := fun st =>
      substringAt?_run st (⟨(cs.length + 1 - ts.length : Nat), i, false⟩ :: fr) w hP hs ht i
    simp only [Machine.inLoop, Nat.zero_add, seq_cons, seq_nil, index_run, push_run, ok_bind, hIndex,
      hSub, bitor, int2_run, lor_flags, List.any_append, List.any_cons,
      List.any_nil, Bool.or_false]
  · have hOver : decide ((cs.length : Int) < ts.length) = true := decide_eq_true (by omega)
    have hNo : decide (ts <:+: cs) = false := decide_eq_false fun hInfix => hFits hInfix.length_le
    rw [if_pos hOver, hNo]
    rfl

end Parts
end Runs
end FactorForth.Correctness
