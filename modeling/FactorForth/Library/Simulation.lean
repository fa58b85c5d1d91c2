import FactorForth.Library.Command

/-! Forward simulation of commands over two kinds of states: every outcome of the one command has a like
outcome of the other, from like start states. -/

namespace FactorForth.Library
variable {σ τ α β α' β' : Type}

/-- Outcomes of one kind, with like results in like states. -/
inductive Out.Like (R : σ → τ → Prop) (A : α → α' → Prop) : Out σ α → Out τ α' → Prop
  | ok {a : α} {a' : α'} {s : σ} {t : τ} (ha : A a a') (hs : R s t) : Out.Like R A (.ok a s) (.ok a' t)
  | ret {s : σ} {t : τ} (hs : R s t) : Out.Like R A (.ret s) (.ret t)
  | fault : Out.Like R A .fault .fault

namespace Cmd

def Simulates (R : σ → τ → Prop) (A : α → α' → Prop) (x : Cmd σ α) (y : Cmd τ α') : Prop :=
  ∀ s t, R s t → ∀ out, x s out → ∃ out', y t out' ∧ Out.Like R A out out'

namespace Simulates
variable {R : σ → τ → Prop} {A : α → α' → Prop} {B : β → β' → Prop} {x : Cmd σ α} {y : Cmd τ α'}

theorem pure {a : α} {a' : α'} (ha : A a a') : Simulates R A (pure a) (pure a') := by
  rintro s t hs _ rfl
  exact ⟨.ok a' t, rfl, .ok ha hs⟩

theorem exit : Simulates R A exit exit := by
  rintro s t hs _ rfl
  exact ⟨.ret t, rfl, .ret hs⟩

theorem get : Simulates R R get get := by
  rintro s t hs _ rfl
  exact ⟨.ok t t, rfl, .ok hs hs⟩

theorem bind {f : α → Cmd σ β} {g : α' → Cmd τ β'} (hx : Simulates R A x y)
    (hf : ∀ a a', A a a' → Simulates R B (f a) (g a')) : Simulates R B (x >>= f) (y >>= g) := by
  rintro s t hs out (⟨a, u, ha, hu⟩ | ⟨u, rfl, hu⟩ | ⟨rfl, hu⟩)
  · obtain ⟨out', hy, hOut⟩ := hx s t hs _ ha
    cases hOut with
    | ok hLike hStates =>
      obtain ⟨out'', hg, hEnd⟩ := hf _ _ hLike _ _ hStates out hu
      exact ⟨out'', Or.inl ⟨_, _, hy, hg⟩, hEnd⟩
  · obtain ⟨out', hy, hOut⟩ := hx s t hs _ hu
    cases hOut with
    | ret hStates => exact ⟨_, Or.inr (Or.inl ⟨_, rfl, hy⟩), .ret hStates⟩
  · obtain ⟨out', hy, hOut⟩ := hx s t hs _ hu
    cases hOut with
    | fault => exact ⟨_, Or.inr (Or.inr ⟨rfl, hy⟩), .fault⟩

theorem ite {p : Prop} [Decidable p] {x' : Cmd σ α} {y' : Cmd τ α'} (hx : Simulates R A x y)
    (hx' : Simulates R A x' y') : Simulates R A (if p then x else x') (if p then y else y') := by
  split
  · exact hx
  · exact hx'

/-- A step that is computed, with the like step to compute on the other side. -/
theorem ofOption {f : σ → Option (α × σ)} {g : τ → Option (α' × τ)}
    (h : ∀ s t, R s t → ∀ p, f s = some p → ∃ q, g t = some q ∧ A p.1 q.1 ∧ R p.2 q.2) :
    Simulates R A (ofOption f) (ofOption g) := by
  rintro s t hs _ ⟨p, hp, rfl⟩
  obtain ⟨q, hq, hA, hR⟩ := h s t hs p hp
  exact ⟨_, ⟨q, hq, rfl⟩, .ok hA hR⟩

theorem ofRel {r : σ → σ → Prop} {r' : τ → τ → Prop}
    (h : ∀ s t, R s t → ∀ u, r s u → ∃ v, r' t v ∧ R u v) :
    Simulates R Eq (ofRel r) (ofRel r') := by
  rintro s t hs _ ⟨u, hu, rfl⟩
  obtain ⟨v, hv, hR⟩ := h s t hs u hu
  exact ⟨_, ⟨v, hv, rfl⟩, .ok rfl hR⟩

theorem lim {c : Nat → Cmd σ α} {d : Nat → Cmd τ α'} (h : ∀ k, Simulates R A (c k) (d k)) :
    Simulates R A (lim c) (lim d) := by
  rintro s t hs out ⟨k, hk⟩
  obtain ⟨out', hd, hOut⟩ := h k s t hs out hk
  exact ⟨out', ⟨k, hd⟩, hOut⟩

theorem catchRet {x : Cmd σ PUnit} {y : Cmd τ PUnit} (hx : Simulates R Eq x y) {h : σ → σ} {h' : τ → τ}
    (hCaught : ∀ s t, R s t → R (h s) (h' t)) : Simulates R Eq (x.catchRet h) (y.catchRet h') := by
  rintro s t hs out (⟨hOut, hNoRet⟩ | ⟨u, hu, rfl⟩)
  · obtain ⟨out', hy, hLike⟩ := hx s t hs out hOut
    refine ⟨out', Or.inl ⟨hy, ?_⟩, hLike⟩
    rintro v rfl
    cases hLike with
    | ret => exact hNoRet _ rfl
  · obtain ⟨out', hy, hLike⟩ := hx s t hs _ hu
    cases hLike with
    | ret hStates => exact ⟨_, Or.inr ⟨_, hy, rfl⟩, .ok rfl (hCaught _ _ hStates)⟩

end Simulates

end Cmd

end FactorForth.Library
