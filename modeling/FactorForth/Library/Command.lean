import Mathlib.Logic.Basic
import Mathlib.Tactic.Common

/-! Commands as relations between a start state and an outcome. An outcome is a normal end with a
result, an early return that skips whatever follows, or a fault: the run met a step it was not
allowed to make. -/

namespace FactorForth.Library
variable {σ α β γ : Type}

inductive Out (σ α : Type) where
  | ok (a : α) (s : σ)
  | ret (s : σ)
  | fault

/-- A command relates a start state to each outcome it may have there. -/
def Cmd (σ α : Type) : Type := σ → Out σ α → Prop

namespace Cmd

theorem ext {x y : Cmd σ α} (h : ∀ s out, x s out ↔ y s out) : x = y :=
  funext fun s => funext fun out => propext (h s out)

instance : Monad (Cmd σ) where
  pure a := fun s out => out = .ok a s
  bind x f := fun s out =>
    (∃ a t, x s (.ok a t) ∧ f a t out) ∨ (∃ t, out = .ret t ∧ x s (.ret t)) ∨
      (out = .fault ∧ x s .fault)

theorem pure_apply (a : α) (s : σ) (out : Out σ α) :
    (pure a : Cmd σ α) s out ↔ out = .ok a s := Iff.rfl

theorem bind_apply (x : Cmd σ α) (f : α → Cmd σ β) (s : σ) (out : Out σ β) :
    (x >>= f) s out ↔ (∃ a t, x s (.ok a t) ∧ f a t out) ∨
      (∃ t, out = .ret t ∧ x s (.ret t)) ∨ (out = .fault ∧ x s .fault) := Iff.rfl

theorem bind_ok {x : Cmd σ α} {f : α → Cmd σ β} {s t : σ} {b : β} :
    (x >>= f) s (.ok b t) ↔ ∃ a u, x s (.ok a u) ∧ f a u (.ok b t) := by
  simp only [bind_apply, reduceCtorEq, false_and, exists_false, or_false]

theorem bind_ret {x : Cmd σ α} {f : α → Cmd σ β} {s t : σ} :
    (x >>= f) s (.ret t) ↔ (∃ a u, x s (.ok a u) ∧ f a u (.ret t)) ∨ x s (.ret t) := by
  simp only [bind_apply, reduceCtorEq, false_and, or_false, Out.ret.injEq]
  constructor
  · rintro (h | ⟨u, rfl, hu⟩)
    · exact Or.inl h
    · exact Or.inr hu
  · rintro (h | h)
    · exact Or.inl h
    · exact Or.inr ⟨t, rfl, h⟩

theorem bind_fault {x : Cmd σ α} {f : α → Cmd σ β} {s : σ} :
    (x >>= f) s .fault ↔ (∃ a u, x s (.ok a u) ∧ f a u .fault) ∨ x s .fault := by
  simp only [bind_apply, reduceCtorEq, false_and, exists_false, false_or, true_and]

theorem pure_bind (a : α) (f : α → Cmd σ β) : (pure a : Cmd σ α) >>= f = f a := by
  refine ext fun s out => ?_
  simp only [bind_apply, pure_apply, Out.ok.injEq, reduceCtorEq, and_false, exists_false, or_false]
  constructor
  · rintro ⟨a', t, ⟨rfl, rfl⟩, h⟩
    exact h
  · exact fun h => ⟨a, s, ⟨rfl, rfl⟩, h⟩

/-- Where `x` has one outcome, what follows starts from it. -/
theorem bind_of_pure {x : Cmd σ α} {s t : σ} {a : α} (h : x s = (pure a : Cmd σ α) t)
    (f : α → Cmd σ β) : (x >>= f) s = f a t := by
  rw [← pure_bind a f]
  funext out
  have hx : ∀ o, x s o ↔ (pure a : Cmd σ α) t o := fun o => iff_of_eq (congrFun h o)
  simp only [bind_apply, hx]

theorem bind_pure (x : Cmd σ α) : x >>= pure = x := by
  refine ext fun s out => ?_
  simp only [bind_apply, pure_apply]
  constructor
  · rintro (⟨a, t, h, rfl⟩ | ⟨t, rfl, h⟩ | ⟨rfl, h⟩) <;> exact h
  · intro h
    cases out with
    | ok a t => exact Or.inl ⟨a, t, h, rfl⟩
    | ret t => exact Or.inr (Or.inl ⟨t, rfl, h⟩)
    | fault => exact Or.inr (Or.inr ⟨rfl, h⟩)

theorem bind_assoc (x : Cmd σ α) (f : α → Cmd σ β) (g : β → Cmd σ γ) :
    x >>= f >>= g = x >>= fun a => f a >>= g := by
  refine ext fun s out => ?_
  rw [bind_apply, bind_apply]
  constructor
  · rintro (⟨b, t, hb, hg⟩ | ⟨t, rfl, hb⟩ | ⟨rfl, hb⟩)
    · obtain ⟨a, u, ha, hf⟩ := bind_ok.1 hb
      exact Or.inl ⟨a, u, ha, Or.inl ⟨b, t, hf, hg⟩⟩
    · rcases bind_ret.1 hb with ⟨a, u, ha, hf⟩ | ha
      · exact Or.inl ⟨a, u, ha, bind_ret.2 (Or.inr hf)⟩
      · exact Or.inr (Or.inl ⟨t, rfl, ha⟩)
    · rcases bind_fault.1 hb with ⟨a, u, ha, hf⟩ | ha
      · exact Or.inl ⟨a, u, ha, bind_fault.2 (Or.inr hf)⟩
      · exact Or.inr (Or.inr ⟨rfl, ha⟩)
  · rintro (⟨a, u, ha, hf⟩ | ⟨t, rfl, ha⟩ | ⟨rfl, ha⟩)
    · rcases hf with ⟨b, t, hb, hg⟩ | ⟨t, rfl, hb⟩ | ⟨rfl, hb⟩
      · exact Or.inl ⟨b, t, bind_ok.2 ⟨a, u, ha, hb⟩, hg⟩
      · exact Or.inr (Or.inl ⟨t, rfl, bind_ret.2 (Or.inl ⟨a, u, ha, hb⟩)⟩)
      · exact Or.inr (Or.inr ⟨rfl, bind_fault.2 (Or.inl ⟨a, u, ha, hb⟩)⟩)
    · exact Or.inr (Or.inl ⟨t, rfl, bind_ret.2 (Or.inr ha)⟩)
    · exact Or.inr (Or.inr ⟨rfl, bind_fault.2 (Or.inr ha)⟩)

instance : LawfulMonad (Cmd σ) := LawfulMonad.mk' (Cmd σ) bind_pure pure_bind bind_assoc

/-- Leave at once with the state as it stands. -/
def exit : Cmd σ α := fun s out => out = .ret s

def get : Cmd σ σ := fun s out => out = .ok s s

def set (t : σ) : Cmd σ PUnit := fun _ out => out = .ok ⟨⟩ t

/-- Go on where `p` holds of the state and fault elsewhere. -/
def guard (p : σ → Prop) : Cmd σ PUnit := fun s out =>
  (p s ∧ out = .ok ⟨⟩ s) ∨ (¬ p s ∧ out = .fault)

/-- A partial function on states; where it has no value the command has no outcome. -/
def ofOption (f : σ → Option (α × σ)) : Cmd σ α := fun s out =>
  ∃ p, f s = some p ∧ out = .ok p.1 p.2

def ofRel (r : σ → σ → Prop) : Cmd σ PUnit := fun s out => ∃ t, r s t ∧ out = .ok ⟨⟩ t

theorem guard_of {p : σ → Prop} (h : ∀ s, p s) : guard p = pure ⟨⟩ := by
  refine ext fun s out => ?_
  simp only [guard, pure_apply, h, true_and, not_true_eq_false, false_and, or_false]

theorem guard_bind_ok {p : σ → Prop} {s : σ} (h : p s) (f : PUnit → Cmd σ β) :
    (guard p >>= f) s = f ⟨⟩ s := by
  funext out
  apply propext
  constructor
  · rintro (⟨a, t, ⟨-, ht⟩ | ⟨hp, -⟩, hf⟩ | ⟨t, -, ⟨-, ht⟩ | ⟨-, ht⟩⟩ | ⟨-, ⟨-, ht⟩ | ⟨hp, -⟩⟩)
    · cases ht
      exact hf
    · exact (hp h).elim
    · cases ht
    · cases ht
    · cases ht
    · exact (hp h).elim
  · exact fun hf => Or.inl ⟨⟨⟩, s, Or.inl ⟨h, rfl⟩, hf⟩

theorem guard_bind_fault {p : σ → Prop} {s : σ} {f : PUnit → Cmd σ β}
    (h : ¬ (guard p >>= f) s .fault) : p s := by
  by_contra hp
  exact h (bind_fault.2 (Or.inr (Or.inr ⟨hp, rfl⟩)))

theorem ofOption_bind_some {f : σ → Option (α × σ)} {s : σ} {p : α × σ} (h : f s = some p)
    (g : α → Cmd σ β) : (ofOption f >>= g) s = g p.1 p.2 := by
  funext out
  apply propext
  simp only [bind_apply, ofOption, h, Option.some.injEq, reduceCtorEq, and_false, exists_false,
    or_false, Out.ok.injEq]
  constructor
  · rintro ⟨a, t, ⟨q, rfl, rfl, rfl⟩, hg⟩
    exact hg
  · exact fun hg => ⟨p.1, p.2, ⟨p, rfl, rfl, rfl⟩, hg⟩

theorem ofOption_bind_none {f : σ → Option (α × σ)} {s : σ} (h : f s = none) (g : α → Cmd σ β)
    (out : Out σ β) : ¬ (ofOption f >>= g) s out := by
  rintro (⟨a, t, ⟨p, hp, -⟩, -⟩ | ⟨t, -, p, hp, -⟩ | ⟨-, p, hp, -⟩)
  all_goals
    rw [h] at hp
    cases hp

theorem exit_bind (f : α → Cmd σ β) : (exit : Cmd σ α) >>= f = exit := by
  refine ext fun s out => ?_
  simp only [bind_apply, exit, reduceCtorEq, false_and, exists_false, false_or, and_false, or_false,
    Out.ret.injEq]
  constructor
  · rintro ⟨t, rfl, rfl⟩
    rfl
  · rintro rfl
    exact ⟨s, rfl, rfl⟩

/-- What comes first decides a sequence where it starts. -/
theorem bind_at {x y : Cmd σ α} {s : σ} (h : x s = y s) (f : α → Cmd σ β) :
    (x >>= f) s = (y >>= f) s := by
  funext out
  rw [eq_iff_iff, bind_apply, bind_apply, h]

/-- Sequences agree where their second parts agree on what the first part reaches. -/
theorem bind_at_ok {x : Cmd σ α} {f g : α → Cmd σ β} {s : σ}
    (h : ∀ a t, x s (.ok a t) → f a t = g a t) : (x >>= f) s = (x >>= g) s := by
  funext out
  rw [eq_iff_iff, bind_apply, bind_apply]
  refine or_congr_left (exists_congr fun a => exists_congr fun t => and_congr_right fun hx => ?_)
  rw [h a t hx]

/-! Loops. A pass yields whether another one follows; the loop yields the number of passes. -/

/-- One pass, and `r` for the rest if the pass asks for more. -/
def next (pass : Cmd σ Bool) (r : Cmd σ Nat) : Cmd σ Nat := do
  if ← pass then
    let n ← r
    pure (n + 1)
  else
    pure 1

def iter (pass : Cmd σ Bool) : Nat → Cmd σ Nat
  | 0 => fun _ _ => False
  | k + 1 => next pass (iter pass k)

def loop (pass : Cmd σ Bool) : Cmd σ Nat := fun s out => ∃ k, iter pass k s out

theorem next_apply (pass : Cmd σ Bool) (r : Cmd σ Nat) (s : σ) (out : Out σ Nat) :
    next pass r s out ↔
      (∃ t, pass s (.ok false t) ∧ out = .ok 1 t) ∨
      (∃ t, pass s (.ok true t) ∧ (r >>= fun n => pure (n + 1)) t out) ∨
      (∃ t, out = .ret t ∧ pass s (.ret t)) ∨ (out = .fault ∧ pass s .fault) := by
  rw [next, bind_apply]
  constructor
  · rintro (⟨b, t, hb, hn⟩ | h)
    · cases b with
      | false => exact Or.inl ⟨t, hb, hn⟩
      | true => exact Or.inr (Or.inl ⟨t, hb, hn⟩)
    · exact Or.inr (Or.inr h)
  · rintro (⟨t, hb, hn⟩ | ⟨t, hb, hn⟩ | h)
    · exact Or.inl ⟨false, t, hb, hn⟩
    · exact Or.inl ⟨true, t, hb, hn⟩
    · exact Or.inr h

theorem loop_eq (pass : Cmd σ Bool) : loop pass = next pass (loop pass) := by
  refine ext fun s out => ?_
  rw [next_apply]
  constructor
  · rintro ⟨k, hk⟩
    cases k with
    | zero => exact hk.elim
    | succ k =>
      rcases (next_apply _ _ _ _).1 hk with h | ⟨t, hb, hn⟩ | h
      · exact Or.inl h
      · refine Or.inr (Or.inl ⟨t, hb, ?_⟩)
        rcases hn with ⟨n, u, hn, hp⟩ | ⟨u, hu, hn⟩ | ⟨hu, hn⟩
        · exact Or.inl ⟨n, u, ⟨k, hn⟩, hp⟩
        · exact Or.inr (Or.inl ⟨u, hu, k, hn⟩)
        · exact Or.inr (Or.inr ⟨hu, k, hn⟩)
      · exact Or.inr (Or.inr h)
  · rintro (h | ⟨t, hb, hn⟩ | h)
    · exact ⟨1, (next_apply _ _ _ _).2 (Or.inl h)⟩
    · rcases hn with ⟨n, u, ⟨k, hn⟩, hp⟩ | ⟨u, hu, k, hn⟩ | ⟨hu, k, hn⟩
      · exact ⟨k + 1, (next_apply _ _ _ _).2 (Or.inr (Or.inl ⟨t, hb, Or.inl ⟨n, u, hn, hp⟩⟩))⟩
      · exact ⟨k + 1,
          (next_apply _ _ _ _).2 (Or.inr (Or.inl ⟨t, hb, Or.inr (Or.inl ⟨u, hu, hn⟩)⟩))⟩
      · exact ⟨k + 1,
          (next_apply _ _ _ _).2 (Or.inr (Or.inl ⟨t, hb, Or.inr (Or.inr ⟨hu, hn⟩)⟩))⟩
    · exact ⟨1, (next_apply _ _ _ _).2 (Or.inr (Or.inr h))⟩

/-- What holds of a state before a pass and is kept by every pass that asks for more holds before
the last one. -/
theorem loop_ok {pass : Cmd σ Bool} {p : σ → Prop} {s u : σ} {n : Nat}
    (hagain : ∀ s t, p s → pass s (.ok true t) → p t) (h : loop pass s (.ok n u)) (hs : p s) :
    ∃ t, p t ∧ pass t (.ok false u) := by
  obtain ⟨k, hk⟩ := h
  induction k generalizing s n with
  | zero => exact hk.elim
  | succ k ih =>
    rcases (next_apply _ _ _ _).1 hk with ⟨t, ht, hu⟩ | ⟨t, ht, hr⟩ | ⟨t, hu, -⟩ | ⟨hu, -⟩
    · cases hu
      exact ⟨s, hs, ht⟩
    · obtain ⟨m, v, hm, hv⟩ := bind_ok.1 hr
      cases hv
      exact ih (hagain s t hs ht) hm
    · cases hu
    · cases hu

/-- The states in which a pass of the loop starts. -/
inductive Starts (pass : Cmd σ Bool) (s : σ) : σ → Prop where
  | first : Starts pass s s
  | again {t u : σ} (h : Starts pass s t) (hPass : pass t (.ok true u)) : Starts pass s u

theorem Starts.keeps {pass : Cmd σ Bool} {p : σ → Prop}
    (hKeep : ∀ s t, p s → pass s (.ok true t) → p t) {s t : σ} (h : Starts pass s t) (hs : p s) :
    p t := by
  induction h with
  | first => exact hs
  | again _ hPass ih => exact hKeep _ _ ih hPass

/-- Loops agree where their passes agree on an invariant. -/
theorem loop_congr {pass pass' : Cmd σ Bool} {p : σ → Prop} (hEq : ∀ s, p s → pass s = pass' s)
    (hKeep : ∀ s t, p s → pass s (.ok true t) → p t) {s : σ} (hs : p s) :
    loop pass s = loop pass' s := by
  have hIter : ∀ k s, p s → ∀ out, iter pass k s out ↔ iter pass' k s out := by
    intro k
    induction k with
    | zero => exact fun s _ out => Iff.rfl
    | succ k ih =>
      intro s hs out
      simp only [iter, next_apply, ← hEq s hs]
      refine or_congr_right (or_congr_left (exists_congr fun t => and_congr_right fun hb => ?_))
      simp only [bind_apply, ih t (hKeep s t hs hb)]
  exact funext fun out => propext (exists_congr fun k => hIter k s hs out)

theorem loop_pos {pass : Cmd σ Bool} {s u : σ} {n : Nat} (h : loop pass s (.ok n u)) : 0 < n := by
  rw [loop_eq] at h
  rcases (next_apply _ _ _ _).1 h with ⟨t, -, hu⟩ | ⟨t, -, hr⟩ | ⟨t, hu, -⟩ | ⟨hu, -⟩
  · cases hu
    exact Nat.one_pos
  · obtain ⟨m, v, -, hv⟩ := bind_ok.1 hr
    cases hv
    exact Nat.succ_pos m
  · cases hu
  · cases hu

theorem loop_one {pass : Cmd σ Bool} {s u : σ} (h : loop pass s (.ok 1 u)) :
    pass s (.ok false u) := by
  rw [loop_eq] at h
  rcases (next_apply _ _ _ _).1 h with ⟨t, ht, hu⟩ | ⟨t, -, hr⟩ | ⟨t, hu, -⟩ | ⟨hu, -⟩
  · cases hu
    exact ht
  · obtain ⟨m, v, hm, hv⟩ := bind_ok.1 hr
    have hmpos := loop_pos hm
    cases hv
    omega
  · cases hu
  · cases hu

def Le (x y : Cmd σ α) : Prop := ∀ s out, x s out → y s out

theorem Le.refl (x : Cmd σ α) : Le x x := fun _ _ h => h

theorem Le.antisymm {x y : Cmd σ α} (hxy : Le x y) (hyx : Le y x) : x = y :=
  ext fun s out => ⟨hxy s out, hyx s out⟩

theorem Le.bind {x x' : Cmd σ α} {f f' : α → Cmd σ β} (hx : Le x x') (hf : ∀ a, Le (f a) (f' a)) :
    Le (x >>= f) (x' >>= f') := by
  rintro s out (⟨a, t, ha, hb⟩ | ⟨t, hu, ht⟩ | ⟨hu, ht⟩)
  · exact Or.inl ⟨a, t, hx s _ ha, hf a t _ hb⟩
  · exact Or.inr (Or.inl ⟨t, hu, hx s _ ht⟩)
  · exact Or.inr (Or.inr ⟨hu, hx s _ ht⟩)

theorem Le.ite {p : Prop} [Decidable p] {x x' y y' : Cmd σ α} (hx : Le x x') (hy : Le y y') :
    Le (if p then x else y) (if p then x' else y') := by
  split
  · exact hx
  · exact hy

/-- A loop whose passes are not counted. -/
def rounds (pass : Cmd σ Bool) : Cmd σ PUnit := do
  let _ ← loop pass
  pure ⟨⟩

/-- One pass, and `z` if it asks for more. -/
def round (pass : Cmd σ Bool) (z : Cmd σ PUnit) : Cmd σ PUnit := do
  if ← pass then z else pure ⟨⟩

theorem next_rounds (pass : Cmd σ Bool) (x : Cmd σ Nat) :
    (next pass x >>= fun _ => pure ⟨⟩) = round pass (x >>= fun _ => pure ⟨⟩) := by
  unfold next round
  rw [bind_assoc]
  refine congrArg _ (funext fun b => ?_)
  cases b with
  | false => exact pure_bind _ _
  | true =>
    show (x >>= fun n => pure (n + 1)) >>= _ = _
    rw [bind_assoc]
    exact congrArg _ (funext fun n => pure_bind _ _)

theorem rounds_eq (pass : Cmd σ Bool) : rounds pass = round pass (rounds pass) := by
  have h := next_rounds pass (loop pass)
  rw [← loop_eq] at h
  exact h

/-- The loop is the least command that one more pass does not enlarge. -/
theorem rounds_le {pass : Cmd σ Bool} {z : Cmd σ PUnit} (h : Le (round pass z) z) :
    Le (rounds pass) z := by
  have hiter : ∀ k, Le (iter pass k >>= fun _ => pure ⟨⟩) z := by
    intro k
    induction k with
    | zero =>
      rintro s out (⟨a, t, ha, -⟩ | ⟨t, -, ht⟩ | ⟨-, ht⟩)
      · exact ha.elim
      · exact ht.elim
      · exact ht.elim
    | succ k ih =>
      intro s out hs
      have hs' : (next pass (iter pass k) >>= fun _ => pure ⟨⟩) s out := hs
      rw [next_rounds] at hs'
      exact h s out (Le.bind (Le.refl pass) (fun _ => Le.ite ih (Le.refl _)) s out hs')
  rintro s out (⟨n, t, ⟨k, hk⟩, hout⟩ | ⟨t, hout, k, hk⟩ | ⟨hout, k, hk⟩)
  · exact hiter k s out (Or.inl ⟨n, t, hk, hout⟩)
  · exact hiter k s out (Or.inr (Or.inl ⟨t, hout, hk⟩))
  · exact hiter k s out (Or.inr (Or.inr ⟨hout, hk⟩))

/-! Commands that never return early. -/

def NoRet (x : Cmd σ α) : Prop := ∀ s t, ¬ x s (.ret t)

theorem NoRet.pure (a : α) : NoRet (pure a : Cmd σ α) := fun _ _ h => nomatch h

theorem NoRet.guard (p : σ → Prop) : NoRet (guard p) := by
  rintro s t (⟨-, h⟩ | ⟨-, h⟩) <;> cases h

theorem NoRet.ofOption (f : σ → Option (α × σ)) : NoRet (ofOption f) := by
  rintro s t ⟨p, -, h⟩
  cases h

theorem NoRet.ofRel (r : σ → σ → Prop) : NoRet (ofRel r) := by
  rintro s t ⟨u, -, h⟩
  cases h

theorem NoRet.bind {x : Cmd σ α} {f : α → Cmd σ β} (hx : NoRet x) (hf : ∀ a, NoRet (f a)) :
    NoRet (x >>= f) := by
  intro s t h
  rcases bind_ret.1 h with ⟨a, u, -, hu⟩ | h
  · exact hf a u t hu
  · exact hx s t h

theorem NoRet.loop {pass : Cmd σ Bool} (h : NoRet pass) : NoRet (loop pass) := by
  rintro s t ⟨k, hk⟩
  induction k generalizing s with
  | zero => exact hk.elim
  | succ k ih =>
    rcases (next_apply _ _ _ _).1 hk with ⟨u, -, hu⟩ | ⟨u, -, hr⟩ | ⟨u, -, hu⟩ | ⟨hu, -⟩
    · cases hu
    · rcases bind_ret.1 hr with ⟨n, v, -, hv⟩ | hr
      · cases hv
      · exact ih u hr
    · exact h s u hu
    · cases hu

theorem NoRet.ite {p : Prop} [Decidable p] {x y : Cmd σ α} (hx : NoRet x) (hy : NoRet y) :
    NoRet (if p then x else y) := by
  split
  · exact hx
  · exact hy

/-- No early return from any state where `x` cannot fault. -/
def SafeNoRet (x : Cmd σ α) : Prop := ∀ s, ¬ x s .fault → ∀ t, ¬ x s (.ret t)

theorem NoRet.safe {x : Cmd σ α} (h : NoRet x) : SafeNoRet x := fun s _ t => h s t

theorem SafeNoRet.bind {x : Cmd σ α} {f : α → Cmd σ β} (hx : SafeNoRet x)
    (hf : ∀ a, SafeNoRet (f a)) : SafeNoRet (x >>= f) := by
  intro s hs t h
  rcases bind_ret.1 h with ⟨a, u, ha, hu⟩ | h
  · exact hf a u (fun hfault => hs (bind_fault.2 (Or.inl ⟨a, u, ha, hfault⟩))) t hu
  · exact hx s (fun hfault => hs (bind_fault.2 (Or.inr hfault))) t h

theorem SafeNoRet.ite {p : Prop} [Decidable p] {x y : Cmd σ α} (hx : SafeNoRet x)
    (hy : SafeNoRet y) : SafeNoRet (if p then x else y) := by
  split
  · exact hx
  · exact hy

theorem SafeNoRet.loop {pass : Cmd σ Bool} (h : SafeNoRet pass) : SafeNoRet (loop pass) := by
  rintro s hs t ⟨k, hk⟩
  induction k generalizing s with
  | zero => exact hk.elim
  | succ k ih =>
    rw [loop_eq, next_apply] at hs
    rcases (next_apply _ _ _ _).1 hk with ⟨u, -, hu⟩ | ⟨u, hp, hr⟩ | ⟨u, hu, hp⟩ | ⟨hu, -⟩
    · cases hu
    · rcases bind_ret.1 hr with ⟨n, v, -, hv⟩ | hr
      · cases hv
      · exact ih u (fun hf => hs (Or.inr (Or.inl ⟨u, hp, bind_fault.2 (Or.inr hf)⟩))) hr
    · exact h s (fun hf => hs (Or.inr (Or.inr (Or.inr ⟨rfl, hf⟩)))) u hp
    · cases hu

/-! Agreement away from faults. -/

/-- From every state where `x` cannot fault, `y` has exactly the outcomes of `x`. -/
def SafeEq (x y : Cmd σ α) : Prop := ∀ s, ¬ x s .fault → ∀ out, y s out ↔ x s out

theorem SafeEq.refl (x : Cmd σ α) : SafeEq x x := fun _ _ _ => Iff.rfl

theorem SafeEq.bind {x x' : Cmd σ α} {f f' : α → Cmd σ β} (hx : SafeEq x x')
    (hf : ∀ a, SafeEq (f a) (f' a)) : SafeEq (x >>= f) (x' >>= f') := by
  intro s hs out
  have hxs : ¬ x s .fault := fun h => hs (bind_fault.2 (Or.inr h))
  have hfs : ∀ a t, x s (.ok a t) → ¬ f a t .fault :=
    fun a t h hft => hs (bind_fault.2 (Or.inl ⟨a, t, h, hft⟩))
  simp only [bind_apply, hx s hxs]
  constructor
  · rintro (⟨a, t, h, ht⟩ | h)
    · exact Or.inl ⟨a, t, h, (hf a t (hfs a t h) out).1 ht⟩
    · exact Or.inr h
  · rintro (⟨a, t, h, ht⟩ | h)
    · exact Or.inl ⟨a, t, h, (hf a t (hfs a t h) out).2 ht⟩
    · exact Or.inr h

theorem SafeEq.ite {p : Prop} [Decidable p] {x x' y y' : Cmd σ α} (hx : SafeEq x x')
    (hy : SafeEq y y') : SafeEq (if p then x else y) (if p then x' else y') := by
  split
  · exact hx
  · exact hy

theorem SafeEq.trans {x y z : Cmd σ α} (hxy : SafeEq x y) (hyz : SafeEq y z) : SafeEq x z := by
  intro s hs out
  have hys : ¬ y s .fault := fun h => hs ((hxy s hs _).1 h)
  rw [hyz s hys, hxy s hs]

theorem SafeEq.loop {pass pass' : Cmd σ Bool} (h : SafeEq pass pass') :
    SafeEq (loop pass) (loop pass') := by
  have hpass : ∀ s, ¬ Cmd.loop pass s .fault → ¬ pass s .fault := by
    intro s hs hp
    rw [loop_eq, next_apply] at hs
    exact hs (Or.inr (Or.inr (Or.inr ⟨rfl, hp⟩)))
  have hnext : ∀ s t, ¬ Cmd.loop pass s .fault → pass s (.ok true t) →
      ¬ Cmd.loop pass t .fault := by
    intro s t hs hp ht
    rw [loop_eq, next_apply] at hs
    exact hs (Or.inr (Or.inl ⟨t, hp, bind_fault.2 (Or.inr ht)⟩))
  have hiter : ∀ k s, ¬ Cmd.loop pass s .fault → ∀ out, iter pass' k s out ↔ iter pass k s out := by
    intro k
    induction k with
    | zero => exact fun s _ out => Iff.rfl
    | succ k ih =>
      intro s hs out
      simp only [iter, next_apply, h s (hpass s hs)]
      refine or_congr_right (or_congr_left (exists_congr fun t => and_congr_right fun hb => ?_))
      simp only [bind_apply, ih t (hnext s t hs hb)]
  exact fun s hs out => exists_congr fun k => hiter k s hs out

/-- A demand may be dropped. -/
theorem SafeEq.guard {p q : σ → Prop} (hq : ∀ s, q s) :
    SafeEq (Cmd.guard p) (Cmd.guard q) := by
  intro s hs out
  have hp : p s := by
    by_contra hp
    exact hs (Or.inr ⟨hp, rfl⟩)
  simp only [Cmd.guard, hp, hq s]

/-! Increasing unions, from which commands defined by nested calls are built. -/

def lim (c : Nat → Cmd σ α) : Cmd σ α := fun s out => ∃ k, c k s out

def Mono (c : Nat → Cmd σ α) : Prop := ∀ j k, j ≤ k → Le (c j) (c k)

theorem Mono.of_succ {c : Nat → Cmd σ α} (h : ∀ k, Le (c k) (c (k + 1))) : Mono c := by
  intro j k hjk
  induction hjk with
  | refl => exact Le.refl _
  | step _ ih => exact fun s out hs => h _ s out (ih s out hs)

/-- The commands `c k` grow to `x`. -/
def Tends (c : Nat → Cmd σ α) (x : Cmd σ α) : Prop := Mono c ∧ lim c = x

theorem Mono.tends {c : Nat → Cmd σ α} (h : Mono c) : Tends c (lim c) := ⟨h, rfl⟩

theorem Tends.const (x : Cmd σ α) : Tends (fun _ => x) x :=
  ⟨fun _ _ _ => Le.refl x, ext fun _ _ => ⟨fun ⟨_, h⟩ => h, fun h => ⟨0, h⟩⟩⟩

theorem Tends.succ {c : Nat → Cmd σ α} {x : Cmd σ α} (h : Tends c x) :
    Tends (fun k => c (k + 1)) x := by
  refine ⟨fun j k hjk => h.1 _ _ (Nat.succ_le_succ hjk), ?_⟩
  rw [← h.2]
  refine ext fun s out => ⟨fun ⟨k, hk⟩ => ⟨k + 1, hk⟩, fun ⟨k, hk⟩ => ⟨k, ?_⟩⟩
  exact h.1 k (k + 1) (Nat.le_succ k) s out hk

theorem Tends.bind {c : Nat → Cmd σ α} {x : Cmd σ α} {f : Nat → α → Cmd σ β} {g : α → Cmd σ β}
    (hc : Tends c x) (hf : ∀ a, Tends (fun k => f k a) (g a)) :
    Tends (fun k => c k >>= f k) (x >>= g) := by
  refine ⟨fun j k h => Le.bind (hc.1 j k h) fun a => (hf a).1 j k h, ext fun s out => ?_⟩
  have hx : ∀ s out, x s out ↔ ∃ k, c k s out := fun s out => by rw [← hc.2]; rfl
  have hg : ∀ a s out, g a s out ↔ ∃ k, f k a s out := fun a s out => by rw [← (hf a).2]; rfl
  simp only [bind_apply, hx, hg]
  constructor
  · rintro ⟨k, ⟨a, t, ha, hb⟩ | ⟨t, hu, ht⟩ | ⟨hu, ht⟩⟩
    · exact Or.inl ⟨a, t, ⟨k, ha⟩, k, hb⟩
    · exact Or.inr (Or.inl ⟨t, hu, k, ht⟩)
    · exact Or.inr (Or.inr ⟨hu, k, ht⟩)
  · rintro (⟨a, t, ⟨j, ha⟩, k, hb⟩ | ⟨t, hu, k, ht⟩ | ⟨hu, k, ht⟩)
    · exact ⟨max j k, Or.inl ⟨a, t, hc.1 j _ (Nat.le_max_left j k) s _ ha,
        (hf a).1 k _ (Nat.le_max_right j k) t _ hb⟩⟩
    · exact ⟨k, Or.inr (Or.inl ⟨t, hu, ht⟩)⟩
    · exact ⟨k, Or.inr (Or.inr ⟨hu, ht⟩)⟩

theorem Tends.unique {c : Nat → Cmd σ α} {x y : Cmd σ α} (hx : Tends c x) (hy : Tends c y) :
    x = y := by
  rw [← hx.2, ← hy.2]

/-- A pair of comparable commands as a growing sequence. -/
def oneStep (x y : Cmd σ α) : Nat → Cmd σ α
  | 0 => x
  | _ + 1 => y

theorem Tends.ofLe {x y : Cmd σ α} (h : Le x y) : Tends (oneStep x y) y := by
  refine ⟨Mono.of_succ fun k => ?_, ext fun s out => ⟨?_, fun hy => ⟨1, hy⟩⟩⟩
  · cases k with
    | zero => exact h
    | succ k => exact Le.refl y
  · rintro ⟨k, hk⟩
    cases k with
    | zero => exact h s out hk
    | succ k => exact hk

theorem Tends.ite {p : Prop} [Decidable p] {c d : Nat → Cmd σ α} {x y : Cmd σ α}
    (hc : Tends c x) (hd : Tends d y) :
    Tends (fun k => if p then c k else d k) (if p then x else y) := by
  split
  · exact hc
  · exact hd

/-- An early return of `x` becomes a normal end in the state `h` makes of it. -/
def catchRet (x : Cmd σ PUnit) (h : σ → σ) : Cmd σ PUnit := fun s out =>
  (x s out ∧ ∀ t, out ≠ .ret t) ∨ ∃ t, x s (.ret t) ∧ out = .ok ⟨⟩ (h t)

theorem catchRet_fault {x : Cmd σ PUnit} {h : σ → σ} {s : σ} :
    x.catchRet h s .fault ↔ x s .fault := by
  constructor
  · rintro (⟨hx, -⟩ | ⟨t, -, ht⟩)
    · exact hx
    · cases ht
  · exact fun hx => Or.inl ⟨hx, fun t ht => nomatch ht⟩

theorem catchRet_pure (a : PUnit) (h : σ → σ) :
    (pure a : Cmd σ PUnit).catchRet h = pure a := by
  refine ext fun s out => ?_
  constructor
  · rintro (⟨hx, -⟩ | ⟨t, ht, -⟩)
    · exact hx
    · cases ht
  · rintro rfl
    exact Or.inl ⟨rfl, fun t ht => nomatch ht⟩

theorem catchRet_exit : (exit : Cmd σ PUnit).catchRet id = pure ⟨⟩ := by
  refine ext fun s out => ?_
  constructor
  · rintro (⟨hx, hne⟩ | ⟨t, ht, hout⟩)
    · exact (hne s hx).elim
    · cases ht
      exact hout
  · intro h
    exact Or.inr ⟨s, rfl, h⟩

theorem catchRet_ite {p : Prop} [Decidable p] (x y : Cmd σ PUnit) (h : σ → σ) :
    (if p then x else y).catchRet h = if p then x.catchRet h else y.catchRet h := by
  split <;> rfl

/-- Where the first part does not return early, only the second is under the catch. -/
theorem catchRet_bind_at {x : Cmd σ α} {f : α → Cmd σ PUnit} {h : σ → σ} {s : σ}
    (hx : ∀ t, ¬ x s (.ret t)) (out : Out σ PUnit) :
    (x >>= f).catchRet h s out ↔ (x >>= fun a => (f a).catchRet h) s out := by
  constructor
  · rintro (⟨⟨a, t, ha, hf⟩ | ⟨t, hout, -⟩ | hfault, hne⟩ | ⟨t, hr, hout⟩)
    · exact Or.inl ⟨a, t, ha, Or.inl ⟨hf, hne⟩⟩
    · exact (hne t hout).elim
    · exact Or.inr (Or.inr hfault)
    · rcases bind_ret.1 hr with ⟨a, u, ha, hf⟩ | hr
      · exact Or.inl ⟨a, u, ha, Or.inr ⟨t, hf, hout⟩⟩
      · exact (hx t hr).elim
  · rintro (⟨a, t, ha, ⟨hf, hne⟩ | ⟨u, hf, hout⟩⟩ | ⟨t, -, hr⟩ | ⟨hout, hfault⟩)
    · exact Or.inl ⟨Or.inl ⟨a, t, ha, hf⟩, hne⟩
    · exact Or.inr ⟨u, bind_ret.2 (Or.inl ⟨a, t, ha, hf⟩), hout⟩
    · exact (hx t hr).elim
    · exact Or.inl ⟨Or.inr (Or.inr ⟨hout, hfault⟩), fun t ht => nomatch hout.symm.trans ht⟩

theorem SafeNoRet.catchRet_bind {x : Cmd σ α} {f : α → Cmd σ PUnit} {h : σ → σ}
    (hx : SafeNoRet x) :
    SafeEq ((x >>= f).catchRet h) (x >>= fun a => (f a).catchRet h) := by
  intro s hs out
  have hxs : ¬ x s .fault := fun hf => hs (catchRet_fault.2 (bind_fault.2 (Or.inr hf)))
  exact (catchRet_bind_at (hx s hxs) out).symm

theorem Tends.catchRet {c : Nat → Cmd σ PUnit} {x : Cmd σ PUnit} (hc : Tends c x) (h : σ → σ) :
    Tends (fun k => (c k).catchRet h) (x.catchRet h) := by
  constructor
  · rintro j k hjk s out (⟨hs, hne⟩ | ⟨t, hs, hu⟩)
    · exact Or.inl ⟨hc.1 j k hjk s _ hs, hne⟩
    · exact Or.inr ⟨t, hc.1 j k hjk s _ hs, hu⟩
  · rw [← hc.2]
    refine ext fun s out => ⟨?_, ?_⟩
    · rintro ⟨k, ⟨hk, hne⟩ | ⟨t, hk, hu⟩⟩
      · exact Or.inl ⟨⟨k, hk⟩, hne⟩
      · exact Or.inr ⟨t, ⟨k, hk⟩, hu⟩
    · rintro (⟨⟨k, hk⟩, hne⟩ | ⟨t, ⟨k, hk⟩, hu⟩)
      · exact ⟨k, Or.inl ⟨hk, hne⟩⟩
      · exact ⟨k, Or.inr ⟨t, hk, hu⟩⟩

end Cmd
end FactorForth.Library
