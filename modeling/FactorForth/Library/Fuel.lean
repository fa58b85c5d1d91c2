import Mathlib.Logic.Basic

/-! Runs that are bounded by fuel: what a run comes to, whatever fuel it has beyond what it needs. -/

namespace FactorForth.Library
variable {α β : Type}

/-- From some amount of fuel on the run gives `a`. -/
def Settles (run : Nat → Option α) (a : α) : Prop := ∃ enough, ∀ fuel, enough ≤ fuel → run fuel = some a

namespace Settles
variable {run next : Nat → Option α} {a a' : α}

theorem done (a : α) : Settles (fun _ => some a) a := ⟨0, fun _ _ => rfl⟩

/-- A run that takes one step and goes on as `next`. -/
theorem step (h : Settles next a) (hStep : ∀ fuel, run (fuel + 1) = next fuel) : Settles run a := by
  obtain ⟨enough, hNext⟩ := h
  refine ⟨enough + 1, fun fuel hFuel => ?_⟩
  obtain ⟨fuel, rfl⟩ := Nat.exists_eq_add_of_le' (Nat.le_of_add_left_le hFuel)
  rw [hStep]
  exact hNext fuel (Nat.le_of_add_le_add_right hFuel)

theorem bind {b : β} {cont : Nat → α → Option β} (h : Settles run a)
    (hCont : Settles (fun fuel => cont fuel a) b) :
    Settles (fun fuel => (run fuel).bind (cont fuel)) b := by
  obtain ⟨enough, hRun⟩ := h
  obtain ⟨more, hMore⟩ := hCont
  refine ⟨max enough more, fun fuel hFuel => ?_⟩
  show (run fuel).bind (cont fuel) = some b
  rw [hRun fuel (Nat.le_trans (Nat.le_max_left _ _) hFuel)]
  exact hMore fuel (Nat.le_trans (Nat.le_max_right _ _) hFuel)

theorem map (h : Settles run a) (f : α → β) : Settles (fun fuel => (run fuel).map f) (f a) := by
  obtain ⟨enough, hRun⟩ := h
  refine ⟨enough, fun fuel hFuel => ?_⟩
  show (run fuel).map f = some (f a)
  rw [hRun fuel hFuel]
  rfl

theorem unique (h : Settles run a) (h' : Settles run a') : a = a' := by
  obtain ⟨enough, hRun⟩ := h
  obtain ⟨enough', hRun'⟩ := h'
  have hSame := hRun (max enough enough') (Nat.le_max_left _ _)
  rw [hRun' _ (Nat.le_max_right _ _)] at hSame
  exact (Option.some.inj hSame).symm

theorem exists_run (h : Settles run a) : ∃ fuel, run fuel = some a := by
  obtain ⟨enough, hRun⟩ := h
  exact ⟨enough, hRun enough (Nat.le_refl _)⟩

end Settles

end FactorForth.Library
