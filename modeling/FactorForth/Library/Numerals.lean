import Mathlib.Data.Nat.Digits.Lemmas

/-! Numerals over an alphabet of digits: the shortest text of a number in a base, and the number that a
text stands for. -/

namespace FactorForth.Library

/-- The digits of a number, the least significant one first. -/
def numeral (base n : Nat) : List Nat := if n = 0 then [0] else Nat.digits base n

section Texts
variable {γ : Type} [DecidableEq γ] (alphabet : List γ) (base : Nat)

def digitValue (c : γ) : Option Nat :=
  if alphabet.idxOf c < base then some (alphabet.idxOf c) else none

/-- The number of a text of at least one digit, the most significant one first. -/
def readDigits (text : List γ) : Option Nat :=
  if text = [] then none
  else (text.mapM (digitValue alphabet base)).map fun ds => Nat.ofDigits base ds.reverse

/-- The shortest text of a number. -/
def digitText (n : Nat) : List γ := (numeral base n).reverse.filterMap fun d => alphabet[d]?

variable {alphabet base}

theorem numeral_ne_nil (n : Nat) : numeral base n ≠ [] := by
  unfold numeral
  split
  · exact List.cons_ne_nil 0 []
  · rename_i hn
    exact Nat.digits_ne_nil_iff_ne_zero.mpr hn

theorem numeral_lt (hbase : 1 < base) {n d : Nat} (hd : d ∈ numeral base n) : d < base := by
  unfold numeral at hd
  split at hd
  · obtain rfl := List.mem_singleton.mp hd
    exact Nat.zero_lt_of_lt hbase
  · exact Nat.digits_lt_base hbase hd

theorem numeral_of_lt {n : Nat} (h : n < base) : numeral base n = [n] := by
  unfold numeral
  split
  · rename_i hn
    rw [hn]
  · rename_i hn
    exact Nat.digits_of_lt base n hn h

/-- The last digit comes off by division. -/
theorem numeral_step (hbase : 1 < base) {n : Nat} (h : base ≤ n) :
    numeral base n = n % base :: numeral base (n / base) := by
  have hn : 0 < n := Nat.lt_of_lt_of_le (Nat.zero_lt_of_lt hbase) h
  have hquot : n / base ≠ 0 := (Nat.div_pos h (Nat.zero_lt_of_lt hbase)).ne'
  rw [numeral, numeral, if_neg hn.ne', if_neg hquot, Nat.digits_def' hbase hn]

theorem ofDigits_numeral (n : Nat) : Nat.ofDigits base (numeral base n) = n := by
  unfold numeral
  split
  · rename_i hn
    rw [hn]
    simp
  · exact Nat.ofDigits_digits base n

theorem numeral_lt_of_lt {small big n : Nat} (hsmall : 1 < small) (hbases : small < big)
    (hsame : numeral small n = numeral big n) : n < small := by
  by_contra hle
  have hstep := numeral_step hsmall (Nat.le_of_not_lt hle)
  have hquot : 0 < n / small := Nat.div_pos (Nat.le_of_not_lt hle) (Nat.zero_lt_of_lt hsmall)
  have hvalue : Nat.ofDigits small (numeral small n) = n := ofDigits_numeral n
  have hvalue' : Nat.ofDigits big (numeral big n) = n := ofDigits_numeral n
  rw [hstep, Nat.ofDigits_cons, ofDigits_numeral] at hvalue
  rw [← hsame, hstep, Nat.ofDigits_cons] at hvalue'
  have hmono := Nat.ofDigits_monotone (numeral small (n / small)) hbases.le
  rw [ofDigits_numeral] at hmono
  have hless : small * (n / small) < big * Nat.ofDigits big (numeral small (n / small)) :=
    Nat.mul_lt_mul_of_lt_of_le hbases hmono (Nat.lt_of_lt_of_le hquot hmono)
  omega

/-- Digits tell the base unless there is but one, and both bases have it. -/
theorem numeral_eq_iff {base' n : Nat} (hbase : 1 < base) (hbase' : 1 < base') :
    numeral base n = numeral base' n ↔ base = base' ∨ n < base ∧ n < base' := by
  constructor
  · intro hsame
    rcases lt_trichotomy base base' with hlt | heq | hgt
    · have hn := numeral_lt_of_lt hbase hlt hsame
      exact .inr ⟨hn, hn.trans hlt⟩
    · exact .inl heq
    · have hn := numeral_lt_of_lt hbase' hgt hsame.symm
      exact .inr ⟨hn.trans hgt, hn⟩
  · rintro (rfl | ⟨hn, hn'⟩)
    · rfl
    · rw [numeral_of_lt hn, numeral_of_lt hn']

theorem numeral_length_le (hbase : 1 < base) {n k : Nat} (hk : 0 < k) (h : n < base ^ k) :
    (numeral base n).length ≤ k := by
  unfold numeral
  split
  · exact hk
  · exact (Nat.digits_length_le_iff hbase n).mpr h

theorem digitValue_lt {c : γ} {d : Nat} (h : digitValue alphabet base c = some d) : d < base := by
  unfold digitValue at h
  split at h
  · cases h
    assumption
  · cases h

theorem digitValue_getElem (hdistinct : alphabet.Nodup) {d : Nat} (hd : d < base)
    (hlength : d < alphabet.length) : digitValue alphabet base alphabet[d] = some d := by
  unfold digitValue
  rw [hdistinct.idxOf_getElem d hlength, if_pos hd]

theorem mapM_digitText (hdistinct : alphabet.Nodup) (hlength : base ≤ alphabet.length)
    (ds : List Nat) (hds : ∀ d ∈ ds, d < base) :
    (ds.filterMap fun d => alphabet[d]?).mapM (digitValue alphabet base) = some ds := by
  induction ds with
  | nil => rfl
  | cons d ds ih =>
    have hd : d < base := hds d List.mem_cons_self
    have hlt : d < alphabet.length := Nat.lt_of_lt_of_le hd hlength
    have htail := ih fun e he => hds e (List.mem_cons_of_mem d he)
    simp only [List.filterMap_cons, List.getElem?_eq_getElem hlt, List.mapM_cons, htail,
      digitValue_getElem hdistinct hd hlt]
    rfl

theorem digits_of_mapM (text : List γ) {ds : List Nat}
    (h : text.mapM (digitValue alphabet base) = some ds) :
    ds.length = text.length ∧ ∀ d ∈ ds, d < base := by
  induction text generalizing ds with
  | nil =>
    obtain rfl := Option.some.inj h
    exact ⟨rfl, fun d hd => absurd hd List.not_mem_nil⟩
  | cons c text ih =>
    rw [List.mapM_cons] at h
    obtain ⟨d, hd, h⟩ := Option.bind_eq_some_iff.mp h
    obtain ⟨tail, htail, h⟩ := Option.bind_eq_some_iff.mp h
    obtain rfl := Option.some.inj h
    obtain ⟨hlength, hlt⟩ := ih htail
    refine ⟨congrArg Nat.succ hlength, ?_⟩
    rw [List.forall_mem_cons]
    exact ⟨digitValue_lt hd, hlt⟩

omit [DecidableEq γ] in
theorem length_digitText (hbase : 1 < base) (hlength : base ≤ alphabet.length) (n : Nat) :
    (digitText alphabet base n).length = (numeral base n).length := by
  unfold digitText
  rw [List.length_filterMap_eq_countP, List.countP_eq_length.mpr, List.length_reverse]
  intro d hd
  have hlt := Nat.lt_of_lt_of_le (numeral_lt hbase (List.mem_reverse.mp hd)) hlength
  simp [hlt]

theorem readDigits_digitText (hdistinct : alphabet.Nodup) (hbase : 1 < base)
    (hlength : base ≤ alphabet.length) (n : Nat) :
    readDigits alphabet base (digitText alphabet base n) = some n := by
  have hne : digitText alphabet base n ≠ [] := by
    rw [← List.length_pos_iff, length_digitText hbase hlength, List.length_pos_iff]
    exact numeral_ne_nil n
  have hmap : (digitText alphabet base n).mapM (digitValue alphabet base) =
      some (numeral base n).reverse :=
    mapM_digitText hdistinct hlength _ fun d hd => numeral_lt hbase (List.mem_reverse.mp hd)
  rw [readDigits, if_neg hne, hmap, Option.map_some, List.reverse_reverse, ofDigits_numeral]

/-- Texts in two bases are the same where the digits are. -/
theorem digitText_eq_iff {base' n n' : Nat} (hdistinct : alphabet.Nodup) (hbase : 1 < base)
    (hbase' : 1 < base') (hlength : base ≤ alphabet.length) (hlength' : base' ≤ alphabet.length) :
    digitText alphabet base n = digitText alphabet base' n' ↔ numeral base n = numeral base' n' := by
  constructor
  · intro hsame
    have hread := mapM_digitText hdistinct le_rfl (numeral base n).reverse fun d hd =>
      Nat.lt_of_lt_of_le (numeral_lt hbase (List.mem_reverse.mp hd)) hlength
    have hread' := mapM_digitText hdistinct le_rfl (numeral base' n').reverse fun d hd =>
      Nat.lt_of_lt_of_le (numeral_lt hbase' (List.mem_reverse.mp hd)) hlength'
    unfold digitText at hsame
    rw [hsame, hread'] at hread
    exact (List.reverse_injective (Option.some.inj hread)).symm
  · intro hsame
    rw [digitText, digitText, hsame]

/-- No text of a number is shorter. -/
theorem digitText_shortest (hbase : 1 < base) (hlength : base ≤ alphabet.length) {text : List γ}
    {n : Nat} (h : readDigits alphabet base text = some n) :
    (digitText alphabet base n).length ≤ text.length := by
  rw [length_digitText hbase hlength]
  unfold readDigits at h
  split at h
  · cases h
  · rename_i hne
    obtain ⟨ds, hds, rfl⟩ := Option.map_eq_some_iff.mp h
    obtain ⟨hsize, hlt⟩ := digits_of_mapM text hds
    refine numeral_length_le hbase (List.length_pos_iff.mpr hne) ?_
    rw [← hsize, ← List.length_reverse]
    exact Nat.ofDigits_lt_base_pow_length hbase fun d hd => hlt d (List.mem_reverse.mp hd)

end Texts

/-- Distinct numbers are written differently. -/
theorem toString_inj {i j : Nat} (h : toString i = toString j) : i = j := by
  have hDigits : Nat.toDigits 10 i = Nat.toDigits 10 j := by
    have hText := congrArg String.toList h
    rwa [show (toString i).toList = Nat.toDigits 10 i from Nat.toList_repr,
      show (toString j).toList = Nat.toDigits 10 j from Nat.toList_repr] at hText
  have hValue := congrArg (fun ds => Nat.ofDigitChars 10 ds 0) hDigits
  simpa using hValue

end FactorForth.Library
