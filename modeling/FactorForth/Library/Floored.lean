import Mathlib.Algebra.Order.Ring.Int

/-! Floored division of integers: the remainder is zero or has the sign of the divisor, and is smaller
than it. -/

namespace FactorForth.Library

structure Floored (a b q r : Int) : Prop where
  split : a = q * b + r
  sign : r = 0 ∨ (0 < r ↔ 0 < b)
  small : r.natAbs < b.natAbs

variable {a b q r : Int}

theorem floored_iff (hb : b ≠ 0) : Floored a b q r ↔ a.fdiv b = q ∧ a.fmod b = r := by
  have hcomm : q * b = b * q := mul_comm q b
  rcases lt_or_gt_of_ne hb with hneg | hpos
  · rw [Int.fdiv_fmod_unique' hneg]
    constructor
    · rintro ⟨hsplit, hsign, hsmall⟩
      refine ⟨?_, ?_, ?_⟩ <;> omega
    · rintro ⟨hsplit, hlow, hhigh⟩
      refine ⟨?_, ?_, ?_⟩ <;> omega
  · rw [Int.fdiv_fmod_unique hpos]
    constructor
    · rintro ⟨hsplit, hsign, hsmall⟩
      refine ⟨?_, ?_, ?_⟩ <;> omega
    · rintro ⟨hsplit, hlow, hhigh⟩
      refine ⟨?_, ?_, ?_⟩ <;> omega

theorem floored_fdiv_fmod (hb : b ≠ 0) : Floored a b (a.fdiv b) (a.fmod b) :=
  (floored_iff hb).mpr ⟨rfl, rfl⟩

/-- The dividend less the remainder is a multiple of the divisor, so that any rounding of the quotient
gives the floored one. -/
theorem tdiv_sub_fmod (hb : b ≠ 0) : (a - a.fmod b).tdiv b = a.fdiv b := by
  have hsplit : a - a.fmod b = b * a.fdiv b := by
    have h := Int.fmod_add_mul_fdiv a b
    omega
  rw [hsplit, Int.mul_tdiv_cancel_left _ hb]

theorem tdiv_eq_fdiv_iff (hb : b ≠ 0) : a.tdiv b = a.fdiv b ↔ b ∣ a ∨ 0 < a * b := by
  have hzero : a = 0 → b ∣ a := fun h => h ▸ Int.dvd_zero b
  rw [Int.tdiv_eq_fdiv, mul_pos_iff]
  rcases lt_or_gt_of_ne hb with hneg | hpos
  · rw [Int.sign_eq_neg_one_of_neg hneg]
    split_ifs <;> grind
  · rw [Int.sign_eq_one_of_pos hpos]
    split_ifs <;> grind

/-- The truncated remainder, brought to the sign of the divisor, is the floored one. -/
theorem fmod_eq_tmod_or (hb : b ≠ 0) :
    a.fmod b = if a.tmod b ≠ 0 ∧ (a.tmod b < 0 ↔ 0 < b) then a.tmod b + b else a.tmod b := by
  have hdvd : b ∣ a ↔ a.tmod b = 0 := Int.dvd_iff_tmod_eq_zero
  rw [Int.fmod_eq_tmod]
  rcases lt_or_ge a 0 with ha | ha
  · have hsign : a.tmod b ≤ 0 := by
      have h := Int.tmod_nonneg b (neg_nonneg.mpr (le_of_lt ha))
      rw [Int.neg_tmod] at h
      exact neg_nonneg.mp h
    split_ifs <;> grind
  · have hsign : 0 ≤ a.tmod b := Int.tmod_nonneg b ha
    split_ifs <;> grind

end FactorForth.Library
