import Mathlib.Logic.Basic

/-! Runs of computations that may fail: where a composed run succeeds, its parts do, and two runs in
step succeed and fail together. -/

namespace FactorForth.Library
variable {ε ε' α α' β β' : Type}

theorem ok_of_bind {x : Except ε α} {f : α → Except ε β} {b : β} (h : x >>= f = .ok b) :
    ∃ a, x = .ok a ∧ f a = .ok b := by
  cases x with
  | error e => cases h
  | ok a => exact ⟨a, rfl, h⟩

theorem ok_of_map {x : Except ε α} {f : α → β} {b : β} (h : x.map f = .ok b) :
    ∃ a, x = .ok a ∧ f a = b := by
  cases x with
  | error e => cases h
  | ok a => exact ⟨a, rfl, Except.ok.inj h⟩

theorem ok_of_toOption {x : Except ε α} {a : α} (h : x.toOption = some a) : x = .ok a := by
  cases x with
  | error e => cases h
  | ok a' => exact congrArg Except.ok (Option.some.inj h)

/-- Two runs that fail together, and whose results are related where they succeed. -/
inductive Alike (R : α → α' → Prop) : Except ε α → Except ε' α' → Prop where
  | ok {a : α} {a' : α'} : R a a' → Alike R (.ok a) (.ok a')
  | error (e : ε) (e' : ε') : Alike R (.error e) (.error e')

namespace Alike
variable {R : α → α' → Prop} {S : β → β' → Prop} {x : Except ε α} {y : Except ε' α'}

theorem bind {f : α → Except ε β} {g : α' → Except ε' β'} (h : Alike R x y)
    (hNext : ∀ a a', R a a' → Alike S (f a) (g a')) : Alike S (x >>= f) (y >>= g) := by
  cases h with
  | ok hValue => exact hNext _ _ hValue
  | error e e' => exact .error e e'

theorem map {f : α → β} {g : α' → β'} (h : Alike R x y) (hNext : ∀ a a', R a a' → S (f a) (g a')) :
    Alike S (x.map f) (y.map g) := by
  cases h with
  | ok hValue => exact .ok (hNext _ _ hValue)
  | error e e' => exact .error e e'

theorem isOk (h : Alike R x y) : x.isOk = y.isOk := by
  cases h <;> rfl

theorem of_ok {a : α} {a' : α'} (h : Alike R (.ok a : Except ε α) (.ok a' : Except ε' α')) :
    R a a' := by
  cases h with
  | ok hValue => exact hValue

end Alike

end FactorForth.Library
