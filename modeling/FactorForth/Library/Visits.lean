import Mathlib.Data.List.Basic
import Mathlib.Data.List.Infix

/-! Visits of a list in order by an action that changes a state: what the visits yield and the state
they end in, and how both grow with the list. -/

namespace FactorForth.Library
variable {σ α β γ : Type}

/-- What the visits yield. -/
def results (f : α → StateM σ β) (xs : List α) (s : σ) : List β := ((xs.mapM f).run s).1

/-- The state after the visits. -/
def visited (f : α → StateM σ β) (xs : List α) (s : σ) : σ := ((xs.mapM f).run s).2

section Visits
variable (f : α → StateM σ β) (xs : List α) (x : α) (s : σ)

@[simp] theorem results_nil : results f [] s = [] := by
  rw [results, List.mapM_nil]
  rfl

@[simp] theorem visited_nil : visited f [] s = s := by
  rw [visited, List.mapM_nil]
  rfl

theorem results_cons :
    results f (x :: xs) s = ((f x).run s).1 :: results f xs ((f x).run s).2 := by
  rw [results, List.mapM_cons]
  rfl

theorem visited_cons : visited f (x :: xs) s = visited f xs ((f x).run s).2 := by
  rw [visited, List.mapM_cons]
  rfl

theorem mapM_snoc : (xs ++ [x]).mapM f = (do
    let ys ← xs.mapM f
    let y ← f x
    pure (ys ++ [y])) := by
  simp only [List.mapM_append, List.mapM_cons, List.mapM_nil, bind_assoc, pure_bind]

theorem results_snoc :
    results f (xs ++ [x]) s = results f xs s ++ [((f x).run (visited f xs s)).1] := by
  rw [results, mapM_snoc]
  rfl

theorem visited_snoc : visited f (xs ++ [x]) s = ((f x).run (visited f xs s)).2 := by
  rw [visited, mapM_snoc]
  rfl

@[simp] theorem length_results : (results f xs s).length = xs.length := by
  induction xs using List.reverseRecOn with
  | nil => rw [results_nil, List.length_nil, List.length_nil]
  | append_singleton xs x ih =>
    rw [results_snoc, List.length_append, List.length_append, ih, List.length_singleton,
      List.length_singleton]

theorem results_take (n : Nat) : results f (xs.take n) s = (results f xs s).take n := by
  induction xs using List.reverseRecOn with
  | nil => rw [List.take_nil, results_nil, List.take_nil]
  | append_singleton xs x ih =>
    rcases Nat.lt_or_ge xs.length n with hn | hn
    · have hAll : (xs ++ [x]).length ≤ n := by
        rw [List.length_append, List.length_singleton]
        exact hn
      rw [List.take_of_length_le hAll, List.take_of_length_le (hAll.trans' (length_results f _ s).le)]
    · rw [List.take_append_of_le_length hn, ih, results_snoc,
        List.take_append_of_le_length (hn.trans_eq (length_results f xs s).symm)]

/-- What a visit on the way yields is among the results. -/
theorem result_mem {xs pre : List α} {x : α} (h : pre ++ [x] <+: xs) :
    ((f x).run (visited f pre s)).1 ∈ results f xs s := by
  have hTake := results_take f xs s (pre ++ [x]).length
  rw [← List.prefix_iff_eq_take.1 h, results_snoc] at hTake
  refine List.mem_of_mem_take (i := (pre ++ [x]).length) ?_
  rw [← hTake]
  exact List.mem_append_right _ (List.mem_singleton_self _)

/-- An action whose results depend on the element alone yields the image of the list. -/
theorem results_of_pure {g : α → β} (h : ∀ x s, ((f x).run s).1 = g x) :
    results f xs s = xs.map g := by
  induction xs using List.reverseRecOn with
  | nil => rw [results_nil, List.map_nil]
  | append_singleton xs x ih => rw [results_snoc, ih, h, List.map_append, List.map_singleton]

end Visits

/-- Where some result fails a test there is a first one. -/
theorem exists_first_result {f : α → StateM σ β} {xs : List α} {s : σ} {p : β → Prop}
    (h : ¬ ∀ y ∈ results f xs s, p y) :
    ∃ before x, before ++ [x] <+: xs ∧ (∀ y ∈ results f before s, p y) ∧
      ¬ p ((f x).run (visited f before s)).1 := by
  induction xs using List.reverseRecOn with
  | nil => exact (h fun y hy => by rw [results_nil] at hy; cases hy).elim
  | append_singleton xs x ih =>
    by_cases hBefore : ∀ y ∈ results f xs s, p y
    · refine ⟨xs, x, List.prefix_rfl, hBefore, fun hLast => h fun y hy => ?_⟩
      rw [results_snoc, List.mem_append, List.mem_singleton] at hy
      rcases hy with hy | rfl
      · exact hBefore y hy
      · exact hLast
    · obtain ⟨before, y, hPrefix, hRest⟩ := ih hBefore
      exact ⟨before, y, hPrefix.trans (List.prefix_append xs [x]), hRest⟩

/-! Accumulators. -/

/-- The accumulator and the state when every element has been folded in. -/
def folded (f : γ → α → StateM σ γ) (init : γ) (xs : List α) (s : σ) : γ × σ :=
  (xs.foldlM f init).run s

@[simp] theorem folded_nil (f : γ → α → StateM σ γ) (init : γ) (s : σ) :
    folded f init [] s = (init, s) := rfl

theorem folded_snoc (f : γ → α → StateM σ γ) (init : γ) (xs : List α) (x : α) (s : σ) :
    folded f init (xs ++ [x]) s = (f (folded f init xs s).1 x).run (folded f init xs s).2 := by
  rw [folded, List.foldlM_append]
  simp only [List.foldlM_cons, List.foldlM_nil, bind_pure]
  rfl

/-- An action whose results depend on accumulator and element alone folds the list. -/
theorem folded_of_pure {f : γ → α → StateM σ γ} {g : γ → α → γ}
    (h : ∀ a x s, ((f a x).run s).1 = g a x) (init : γ) (xs : List α) (s : σ) :
    (folded f init xs s).1 = xs.foldl g init := by
  induction xs using List.reverseRecOn with
  | nil => rfl
  | append_singleton xs x ih => rw [folded_snoc, h, ih, List.foldl_append, List.foldl_cons, List.foldl_nil]

/-! Prefixes of a list. -/

theorem prefix_snoc {xs pre : List α} {x : α} (h : pre ++ [x] <+: xs) : pre <+: xs :=
  (List.prefix_append pre [x]).trans h

theorem getElem?_of_snoc {xs pre : List α} {x : α} (h : pre ++ [x] <+: xs) :
    xs[pre.length]? = some x := by
  obtain ⟨rest, rfl⟩ := h
  rw [List.append_assoc, List.getElem?_append_right le_rfl, Nat.sub_self]
  rfl

theorem length_lt_of_snoc {xs pre : List α} {x : α} (h : pre ++ [x] <+: xs) :
    pre.length < xs.length := by
  have hLength := h.length_le
  rw [List.length_append, List.length_singleton] at hLength
  exact hLength

end FactorForth.Library
