import Mathlib.Data.List.Basic
import Mathlib.Data.List.Induction

/-! Runs of a deterministic system: the states a fold passes through, and invariants that hold in all
of them exactly when each step meets a condition. -/

namespace FactorForth.Library
variable {σ ι : Type} (step : σ → ι → σ)

/-- The state after the first `n` inputs. -/
def stateAt (s : σ) (inputs : List ι) (n : Nat) : σ := (inputs.take n).foldl step s

theorem stateAt_succ (s : σ) {inputs : List ι} {n : Nat} {i : ι} (h : inputs[n]? = some i) :
    stateAt step s inputs (n + 1) = step (stateAt step s inputs n) i := by
  have hTake : inputs.take (n + 1) = inputs.take n ++ [i] := by
    rw [List.take_add_one, h]
    rfl
  rw [stateAt, hTake, List.foldl_append]
  rfl

theorem stateAt_end (s : σ) {inputs : List ι} {n : Nat} (h : inputs[n]? = none) :
    stateAt step s inputs (n + 1) = stateAt step s inputs n := by
  have hTake : inputs.take (n + 1) = inputs.take n := by
    rw [List.take_add_one, h]
    exact List.append_nil _
  rw [stateAt, hTake]
  rfl

variable {step}

/-- When a step with `ok` keeps the invariant, a run of such steps has it all along. -/
theorem run_keeps {inv : σ → Prop} {ok : σ → ι → Prop}
    (hStep : ∀ s i, inv s → ok s i → inv (step s i)) {s : σ} (hStart : inv s) {inputs : List ι}
    (hOk : ∀ n i, inputs[n]? = some i → ok (stateAt step s inputs n) i) (n : Nat) :
    inv (stateAt step s inputs n) := by
  induction n with
  | zero => exact hStart
  | succ n ih =>
    cases hi : inputs[n]? with
    | none =>
      rw [stateAt_end step s hi]
      exact ih
    | some i =>
      rw [stateAt_succ step s hi]
      exact hStep _ i ih (hOk n i hi)

/-- When a step keeps the invariant exactly if `ok` holds of it, a run has the invariant all along
exactly if `ok` holds of each of its steps. -/
theorem run_iff {inv : σ → Prop} {ok : σ → ι → Prop}
    (hStep : ∀ s i, inv s → (inv (step s i) ↔ ok s i)) {s : σ} (hStart : inv s) (inputs : List ι) :
    (∀ n, inv (stateAt step s inputs n)) ↔
      ∀ n i, inputs[n]? = some i → ok (stateAt step s inputs n) i := by
  constructor
  · intro h n i hi
    have hNext := h (n + 1)
    rw [stateAt_succ step s hi] at hNext
    exact (hStep _ i (h n)).mp hNext
  · intro h n
    exact run_keeps (fun s i hInv hOk => (hStep s i hInv).mpr hOk) hStart h n

/-- A run of a system that may take several steps in a state, with the actions of its steps. -/
inductive Run (step : σ → ι → σ → Prop) (s : σ) : List ι → σ → Prop where
  | start : Run step s [] s
  | next {is : List ι} {t u : σ} {i : ι} (h : Run step s is t) (hStep : step t i u) :
      Run step s (is ++ [i]) u

/-- A run of a system whose actions have one outcome at most, from its computation. -/
theorem Run.of_foldlM {act : σ → ι → Option σ} {s t : σ} {is : List ι}
    (h : is.foldlM act s = some t) : Run (fun s i t => act s i = some t) s is t := by
  induction is using List.reverseRecOn generalizing t with
  | nil =>
    obtain rfl := Option.some.inj h
    exact .start
  | append_singleton is i ih =>
    rw [List.foldlM_append] at h
    obtain ⟨u, hPrefix, hLast⟩ := Option.bind_eq_some_iff.mp h
    have hStep : act u i = some t := by simpa using hLast
    exact .next (ih hPrefix) hStep

theorem Run.append {step : σ → ι → σ → Prop} {s t u : σ} {is js : List ι} (h : Run step s is t)
    (h' : Run step t js u) : Run step s (is ++ js) u := by
  induction h' with
  | start => rwa [List.append_nil]
  | next _ hStep ih =>
    rw [← List.append_assoc]
    exact .next ih hStep

theorem Run.cons {step : σ → ι → σ → Prop} {s t u : σ} {i : ι} {is : List ι} (h : step s i t)
    (hRest : Run step t is u) : Run step s (i :: is) u :=
  (Run.next .start h).append hRest

/-- Where a step has one outcome at most, so has a run. -/
theorem Run.unique {step : σ → ι → σ → Prop} (hStep : ∀ s i t t', step s i t → step s i t' → t = t')
    {s t t' : σ} {is : List ι} (h : Run step s is t) (h' : Run step s is t') : t = t' := by
  induction h generalizing t' with
  | start =>
    generalize hNil : ([] : List ι) = is at h'
    cases h' with
    | start => rfl
    | next _ _ => exact absurd hNil.symm (List.append_ne_nil_of_right_ne_nil _ (List.cons_ne_nil _ _))
  | @next is u v i _ hLast ih =>
    generalize hIs : is ++ [i] = js at h'
    cases h' with
    | start => exact absurd hIs (List.append_ne_nil_of_right_ne_nil _ (List.cons_ne_nil _ _))
    | next h' hLast' =>
      obtain ⟨rfl, hEq⟩ := List.append_inj' hIs rfl
      obtain rfl := (List.cons.inj hEq).1
      obtain rfl := ih h'
      exact hStep _ _ _ _ hLast hLast'

theorem Run.mono {step step' : σ → ι → σ → Prop} (hStep : ∀ s i t, step s i t → step' s i t)
    {s t : σ} {is : List ι} (h : Run step s is t) : Run step' s is t := by
  induction h with
  | start => exact .start
  | next _ h ih => exact .next ih (hStep _ _ _ h)

/-- A run all of whose actions meet a condition. -/
theorem Run.restrict {step : σ → ι → σ → Prop} {ok : ι → Prop} {s t : σ} {is : List ι}
    (h : Run step s is t) (hOk : ∀ i ∈ is, ok i) : Run (fun s i t => ok i ∧ step s i t) s is t := by
  induction h with
  | start => exact .start
  | next h hStep ih =>
    have hLast := hOk _ (List.mem_append_right _ List.mem_cons_self)
    exact .next (ih fun i hi => hOk i (List.mem_append_left _ hi)) ⟨hLast, hStep⟩

/-- What every step keeps holds along a run. -/
theorem Run.keeps {step : σ → ι → σ → Prop} {inv : σ → Prop}
    (hStep : ∀ s i t, inv s → step s i t → inv t) {s t : σ} {is : List ι} (h : Run step s is t)
    (hStart : inv s) : inv t := by
  induction h with
  | start => exact hStart
  | next _ h ih => exact hStep _ _ _ ih h

/-- A fold whose steps are defined where the invariant holds, and keep it. -/
theorem foldlM_keeps {act : σ → ι → Option σ} {inv : σ → Prop} {is : List ι}
    (hStep : ∀ s, ∀ i ∈ is, inv s → ∃ t, act s i = some t ∧ inv t) {s : σ} (hStart : inv s) :
    ∃ t, is.foldlM act s = some t ∧ inv t := by
  induction is generalizing s with
  | nil => exact ⟨s, rfl, hStart⟩
  | cons i is ih =>
    obtain ⟨t, hAct, hInv⟩ := hStep s i List.mem_cons_self hStart
    obtain ⟨u, hRest, hEnd⟩ := ih (fun s j hj => hStep s j (List.mem_cons_of_mem i hj)) hInv
    refine ⟨u, ?_, hEnd⟩
    rw [List.foldlM_cons, hAct]
    exact hRest

end FactorForth.Library
