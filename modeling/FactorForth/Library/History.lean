import Mathlib.Data.List.Basic

/-! Linear histories: records that each lead from one state to another, in a row that ends at the
present. The row read the other way is a future, to be gone through again. -/

namespace FactorForth.Library
variable {ε σ : Type} {before after : ε → σ}

/-- The records, the last first: each was made from the state that the one before it left, and the
last of them left `s`. -/
def Chained (before after : ε → σ) : List ε → σ → Prop
  | [], _ => True
  | e :: es, s => after e = s ∧ Chained before after es (before e)

theorem chained_nil (s : σ) : Chained before after [] s := trivial

theorem Chained.push {es : List ε} {s : σ} (h : Chained before after es s) (e : ε)
    (hBefore : before e = s) : Chained before after (e :: es) (after e) :=
  ⟨rfl, hBefore ▸ h⟩

/-- The last record may be replaced by one made from the same state. -/
theorem Chained.amend {e : ε} {es : List ε} {s : σ} (h : Chained before after (e :: es) s) (e' : ε)
    (hBefore : before e' = before e) : Chained before after (e' :: es) (after e') :=
  ⟨rfl, hBefore ▸ h.2⟩

/-- The oldest records may be forgotten. -/
theorem Chained.take {es : List ε} {s : σ} (h : Chained before after es s) (n : Nat) :
    Chained before after (es.take n) s := by
  induction es generalizing s n with
  | nil =>
    rw [List.take_nil]
    exact h
  | cons e es ih =>
    cases n with
    | zero => exact trivial
    | succ n => exact ⟨h.1, ih h.2 n⟩

/-- To go back over the last record puts it in front of the future. -/
theorem Chained.back {e : ε} {past future : List ε} {s : σ}
    (hPast : Chained before after (e :: past) s) (hFuture : Chained after before future s) :
    Chained before after past (before e) ∧ Chained after before (e :: future) (before e) :=
  ⟨hPast.2, hFuture.push e hPast.1⟩

end FactorForth.Library
