import Mathlib.Data.List.Basic

/-! Sequences in which every name is defined before it is used. An element brings its own names into
force before it uses any. -/

namespace FactorForth.Library
variable {α β κ : Type} (defs uses : α → List κ)

def DefinedFirst (known : κ → Prop) : List α → Prop
  | [] => True
  | a :: as => (∀ k ∈ uses a, known k ∨ k ∈ defs a) ∧
      DefinedFirst (fun k => known k ∨ k ∈ defs a) as

/-- Each element with what stands in front of it. -/
def splits : List α → List (List α × α)
  | [] => []
  | a :: as => ([], a) :: (splits as).map fun p => (a :: p.1, p.2)

theorem mem_splits {as pre : List α} {a : α} :
    (pre, a) ∈ splits as ↔ ∃ post, as = pre ++ a :: post := by
  induction as generalizing pre with
  | nil => simp [splits]
  | cons b as ih =>
    rw [splits, List.mem_cons, List.mem_map]
    constructor
    · rintro (hHead | ⟨⟨pre', a'⟩, hMem, hEq⟩)
      · obtain ⟨rfl, rfl⟩ := Prod.mk.inj hHead
        exact ⟨as, rfl⟩
      · obtain ⟨rfl, rfl⟩ := Prod.mk.inj hEq
        obtain ⟨post, rfl⟩ := ih.mp hMem
        exact ⟨post, rfl⟩
    · rintro ⟨post, hEq⟩
      cases pre with
      | nil =>
        obtain ⟨rfl, rfl⟩ := List.cons.inj hEq
        exact .inl rfl
      | cons c pre =>
        obtain ⟨rfl, hTail⟩ := List.cons.inj hEq
        exact .inr ⟨(pre, a), ih.mpr ⟨post, hTail⟩, rfl⟩

namespace DefinedFirst

def decide [DecidableEq κ] : (known : κ → Prop) → [DecidablePred known] → (as : List α) →
    Decidable (DefinedFirst defs uses known as)
  | _, _, [] => .isTrue trivial
  | known, _, a :: as =>
    have : Decidable (DefinedFirst defs uses (fun k => known k ∨ k ∈ defs a) as) :=
      decide (fun k => known k ∨ k ∈ defs a) as
    inferInstanceAs (Decidable (_ ∧ _))

instance [DecidableEq κ] (known : κ → Prop) [DecidablePred known] (as : List α) :
    Decidable (DefinedFirst defs uses known as) := decide defs uses known as

variable {defs uses} {known known' : κ → Prop}

theorem mono (h : ∀ k, known k → known' k) {as : List α} (ha : DefinedFirst defs uses known as) :
    DefinedFirst defs uses known' as := by
  induction as generalizing known known' with
  | nil => trivial
  | cons a as ih =>
    refine ⟨fun k hk => (ha.1 k hk).imp_left (h k), ih (fun k hk => hk.imp_left (h k)) ha.2⟩

theorem congr (h : ∀ k, known k ↔ known' k) {as : List α} :
    DefinedFirst defs uses known as ↔ DefinedFirst defs uses known' as :=
  ⟨mono fun k => (h k).mp, mono fun k => (h k).mpr⟩

theorem append (as bs : List α) :
    DefinedFirst defs uses known (as ++ bs) ↔ DefinedFirst defs uses known as ∧
      DefinedFirst defs uses (fun k => known k ∨ k ∈ as.flatMap defs) bs := by
  induction as generalizing known with
  | nil => simp [DefinedFirst]
  | cons a as ih =>
    rw [List.cons_append, DefinedFirst, DefinedFirst, ih, and_assoc]
    refine and_congr_right fun _ => and_congr_right fun _ => congr fun k => ?_
    rw [List.flatMap_cons, List.mem_append, or_assoc]

theorem singleton (a : α) :
    DefinedFirst defs uses known [a] ↔ ∀ k ∈ uses a, known k ∨ k ∈ defs a := by
  simp [DefinedFirst]

/-- Nothing is asked of elements that use no name. -/
theorem of_no_uses {as : List α} (h : ∀ a ∈ as, uses a = []) : DefinedFirst defs uses known as := by
  induction as generalizing known with
  | nil => trivial
  | cons a as ih =>
    refine ⟨fun k hk => ?_, ih fun b hb => h b (List.mem_cons_of_mem _ hb)⟩
    rw [h a List.mem_cons_self] at hk
    cases hk

/-- A sequence made of pieces is looked at piece by piece, with what the pieces before define. -/
theorem flatMap (f : β → List α) (bs : List β) :
    DefinedFirst defs uses known (bs.flatMap f) ↔ ∀ pre b post, bs = pre ++ b :: post →
      DefinedFirst defs uses (fun k => known k ∨ k ∈ (pre.flatMap f).flatMap defs) (f b) := by
  induction bs generalizing known with
  | nil => simp [DefinedFirst]
  | cons b bs ih =>
    rw [List.flatMap_cons, append, ih]
    constructor
    · rintro ⟨hb, hbs⟩ pre c post heq
      cases pre with
      | nil =>
        cases heq
        simpa using hb
      | cons p pre =>
        obtain ⟨rfl, rfl⟩ := List.cons.inj heq
        refine mono (fun k hk => ?_) (hbs pre c post rfl)
        simpa [or_assoc] using hk
    · intro h
      refine ⟨by simpa using h [] b bs rfl, fun pre c post heq => ?_⟩
      refine mono (fun k hk => ?_) (h (b :: pre) c post (by rw [heq]; rfl))
      simpa [or_assoc] using hk

end DefinedFirst
end FactorForth.Library
