import Mathlib.Data.List.Nodup
import Mathlib.Logic.Relation

/-! Elements in the order of a list, and relations that only ever lead on in it. -/

namespace FactorForth.Library
variable {α : Type} {r : α → α → Prop} {order front : List α} {a b c : α}

/-- `a` stands in the list in front of `b`. -/
def Before (order : List α) (a b : α) : Prop := ∃ front rest, order = front ++ a :: rest ∧ b ∈ rest

/-- No way along the relation leads back to where it started. -/
def Acyclic (r : α → α → Prop) : Prop := ∀ a, ¬ Relation.TransGen r a a

namespace Before

theorem head (h : b ∈ order) : Before (a :: order) a b := ⟨[], order, rfl, h⟩

theorem behind (front : List α) (h : Before order a b) : Before (front ++ order) a b := by
  obtain ⟨front', rest, rfl, hb⟩ := h
  exact ⟨front ++ front', rest, (List.append_assoc ..).symm, hb⟩

theorem across (ha : a ∈ front) (hb : b ∈ order) : Before (front ++ order) a b := by
  obtain ⟨pre, post, rfl⟩ := List.append_of_mem ha
  refine ⟨pre, post ++ order, ?_, List.mem_append_right _ hb⟩
  rw [List.append_assoc, List.cons_append]

theorem trans (hNodup : order.Nodup) (h : Before order a b) (h' : Before order b c) : Before order a c := by
  obtain ⟨front, rest, rfl, hb⟩ := h
  obtain ⟨front', rest', hEq, hc⟩ := h'
  obtain ⟨mid, rest₂, rfl⟩ := List.append_of_mem hb
  refine ⟨front, mid ++ b :: rest₂, rfl, List.mem_append_right _ (List.mem_cons_of_mem _ ?_)⟩
  -- the two places of `b` are one
  have hSplit : (front ++ a :: mid) ++ b :: rest₂ = front' ++ b :: rest' := by
    rw [← hEq, List.append_assoc, List.cons_append]
  have hNodup' : ((front ++ a :: mid) ++ b :: rest₂).Nodup := by
    rwa [List.append_assoc, List.cons_append]
  have hNot : b ∉ front ++ a :: mid := fun hIn =>
    (List.nodup_append.mp hNodup').2.2 b hIn b List.mem_cons_self rfl
  have hNot' : b ∉ front' := fun hIn =>
    (List.nodup_append.mp (hSplit ▸ hNodup')).2.2 b hIn b List.mem_cons_self rfl
  have hRest : rest₂ = rest' := by
    rcases List.append_eq_append_iff.mp hSplit with ⟨gap, hFront, hBack⟩ | ⟨gap, hFront, hBack⟩
    · cases gap with
      | nil => exact (List.cons.inj hBack).2
      | cons d gap =>
        cases (List.cons.inj hBack).1
        exact absurd (hFront ▸ List.mem_append_right _ List.mem_cons_self) hNot'
    · cases gap with
      | nil => exact (List.cons.inj hBack).2.symm
      | cons d gap =>
        cases (List.cons.inj hBack).1
        exact absurd (hFront ▸ List.mem_append_right _ List.mem_cons_self) hNot
  rwa [hRest]

theorem irrefl (hNodup : order.Nodup) : ¬ Before order a a := by
  rintro ⟨front, rest, rfl, ha⟩
  exact (List.nodup_cons.mp (List.nodup_append.mp hNodup).2.1).1 ha

end Before

theorem acyclic_of_before (hNodup : order.Nodup) (h : ∀ a b, r a b → Before order a b) : Acyclic r := by
  have hOn : ∀ a b, Relation.TransGen r a b → Before order a b := by
    intro a b hPath
    induction hPath with
    | single hStep => exact h _ _ hStep
    | tail _ hStep ih => exact ih.trans hNodup (h _ _ hStep)
  exact fun a hPath => Before.irrefl hNodup (hOn a a hPath)

end FactorForth.Library
