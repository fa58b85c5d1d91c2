import Mathlib.Data.Nat.Dist

/-! Rows of growing positions, and the place of a row that is nearest to a position. -/

namespace FactorForth.Library

/-- The positions of the first `n + 1` places grow. -/
def Growing (pos : Nat → Nat) (n : Nat) : Prop := ∀ j k, j < k → k ≤ n → pos j < pos k

/-- The leftmost of the places up to `n` that are nearest to `c`. -/
structure Nearest (pos : Nat → Nat) (n c b : Nat) : Prop where
  within : b ≤ n
  closest : ∀ j ≤ n, Nat.dist (pos b) c ≤ Nat.dist (pos j) c
  leftmost : ∀ j ≤ n, Nat.dist (pos j) c = Nat.dist (pos b) c → b ≤ j

section Rows
variable {pos : Nat → Nat} {n c : Nat}

theorem growing_of_step (h : ∀ k, k < n → pos k < pos (k + 1)) : Growing pos n := by
  intro j k hjk
  induction k with
  | zero => exact absurd hjk (Nat.not_lt_zero j)
  | succ k ih =>
    intro hk
    rcases (Nat.lt_succ_iff.mp hjk).eq_or_lt with rfl | hLess
    · exact h j hk
    · exact (ih hLess (Nat.le_of_succ_le hk)).trans (h k hk)

theorem Growing.le (h : Growing pos n) {j k : Nat} (hjk : j ≤ k) (hk : k ≤ n) : pos j ≤ pos k := by
  rcases hjk.eq_or_lt with rfl | hLess
  · exact Nat.le_refl _
  · exact (h j k hLess hk).le

theorem Growing.injective (h : Growing pos n) {j k : Nat} (hj : j ≤ n) (hk : k ≤ n)
    (hPos : pos j = pos k) : j = k := by
  rcases lt_trichotomy j k with hLess | hEq | hLess
  · exact absurd hPos (h j k hLess hk).ne
  · exact hEq
  · exact absurd hPos.symm (h k j hLess hj).ne

/-- A position of the row is nearest to itself. -/
theorem Growing.nearest_self (h : Growing pos n) {b : Nat} (hb : b ≤ n) : Nearest pos n (pos b) b := by
  refine ⟨hb, fun j _ => ?_, fun j hj hSame => ?_⟩
  · rw [Nat.dist_self]
    exact Nat.zero_le _
  · rw [Nat.dist_self] at hSame
    exact (h.injective hj hb (Nat.eq_of_dist_eq_zero hSame)).ge

/-- Between two places the nearer one, the left one where they are as near. -/
theorem Growing.nearest_between (h : Growing pos n) {i : Nat} (hi : i < n) (hLow : pos i < c)
    (hHigh : c < pos (i + 1)) :
    Nearest pos n c (if c - pos i ≤ pos (i + 1) - c then i else i + 1) := by
  have hSides : ∀ j ≤ n, (j ≤ i ∧ pos j ≤ pos i) ∨ (i + 1 ≤ j ∧ pos (i + 1) ≤ pos j) := by
    intro j hj
    rcases Nat.lt_or_ge i j with hRight | hLeft
    · exact .inr ⟨hRight, h.le hRight hj⟩
    · exact .inl ⟨hLeft, h.le hLeft hi.le⟩
  split
  case isTrue hNear =>
    refine ⟨hi.le, fun j hj => ?_, fun j hj hSame => ?_⟩
    · rcases hSides j hj with ⟨-, hPos⟩ | ⟨-, hPos⟩ <;> simp only [Nat.dist] <;> omega
    · rcases hSides j hj with ⟨hLeft, hPos⟩ | ⟨hRight, -⟩
      · have hEq : pos j = pos i := by
          simp only [Nat.dist] at hSame
          omega
        exact (h.injective hj hi.le hEq).ge
      · omega
  case isFalse hFar =>
    refine ⟨hi, fun j hj => ?_, fun j hj hSame => ?_⟩
    · rcases hSides j hj with ⟨-, hPos⟩ | ⟨-, hPos⟩ <;> simp only [Nat.dist] <;> omega
    · rcases hSides j hj with ⟨-, hPos⟩ | ⟨hRight, -⟩
      · simp only [Nat.dist] at hSame
        omega
      · exact hRight

/-- Behind the row its last place is nearest. -/
theorem Growing.nearest_last (h : Growing pos n) (hc : pos n ≤ c) : Nearest pos n c n := by
  refine ⟨Nat.le_refl n, fun j hj => ?_, fun j hj hSame => ?_⟩
  · have hPos := h.le hj (Nat.le_refl n)
    simp only [Nat.dist]
    omega
  · have hPos := h.le hj (Nat.le_refl n)
    have hEq : pos j = pos n := by
      simp only [Nat.dist] at hSame
      omega
    exact (h.injective hj (Nat.le_refl n) hEq).ge

/-- What is nearest to a position of the row is the place that has it. -/
theorem Nearest.eq_of_pos {b k : Nat} (hb : Nearest pos n (pos k) b) (h : Growing pos n) (hk : k ≤ n) :
    b = k := by
  have hClose := hb.closest k hk
  rw [Nat.dist_self] at hClose
  exact h.injective hb.within hk (Nat.eq_of_dist_eq_zero (Nat.le_zero.mp hClose))

end Rows
end FactorForth.Library
