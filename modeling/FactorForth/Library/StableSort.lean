import Mathlib.Data.List.Basic

/-! Stable sorting by a total preorder that is known on some elements only, one insertion at a time. -/

namespace FactorForth.Library
variable {β : Type} {le : β → β → Prop} [DecidableRel le]

/-- `le` is a total preorder of these elements. -/
structure Preorders (le : β → β → Prop) (all : List β) : Prop where
  total : ∀ a ∈ all, ∀ b ∈ all, le a b ∨ le b a
  trans : ∀ a ∈ all, ∀ b ∈ all, ∀ c ∈ all, le a b → le b c → le a c

/-- The elements that are equal to `x` in the order. -/
def peers (le : β → β → Prop) [DecidableRel le] (x : β) (xs : List β) : List β :=
  xs.filter fun y => le x y ∧ le y x

/-- `ys` is `xs` in order, and what is equal to an element of `all` is as it was. -/
structure StableSort (le : β → β → Prop) [DecidableRel le] (all xs ys : List β) : Prop where
  perm : ys.Perm xs
  sorted : ys.Pairwise le
  stable : ∀ x ∈ all, peers le x ys = peers le x xs

theorem peers_append (x : β) (xs ys : List β) : peers le x (xs ++ ys) = peers le x xs ++ peers le x ys :=
  List.filter_append _ _

theorem peers_eq_nil {x : β} {xs : List β} (h : ∀ y ∈ xs, ¬ (le x y ∧ le y x)) : peers le x xs = [] := by
  refine List.filter_eq_nil_iff.mpr fun y hy => ?_
  rw [decide_eq_true_eq]
  exact h y hy

/-- A key in front of elements among which it has no peer. -/
theorem peers_cons {x key : β} {high : List β} (h : le x key ∧ le key x → peers le x high = []) :
    peers le x (key :: high) = peers le x high ++ peers le x [key] := by
  rw [← List.singleton_append, peers_append]
  by_cases hPeer : le x key ∧ le key x
  · rw [h hPeer, List.append_nil, List.nil_append]
  · have hNone : peers le x [key] = [] := peers_eq_nil fun y hy => by rwa [List.mem_singleton.mp hy]
    rw [hNone, List.append_nil, List.nil_append]

namespace StableSort
variable {all xs low high : List β} {x key : β}

theorem singleton : StableSort le all [x] [x] :=
  ⟨List.Perm.refl _, List.pairwise_singleton _ _, fun _ _ => rfl⟩

omit [DecidableRel le] in
/-- Where the last of some elements in order is not above the key, none is. -/
theorem below_key (hOrder : Preorders le all) (hSorted : low.Pairwise le) (hMem : ∀ y ∈ low, y ∈ all)
    (hKey : key ∈ all) (hLast : ∀ y ∈ low.getLast?, le y key) : ∀ y ∈ low, le y key := by
  rcases low.eq_nil_or_concat with rfl | ⟨front, last, rfl⟩
  · exact fun y hy => absurd hy List.not_mem_nil
  rw [List.concat_eq_append] at hSorted hMem hLast ⊢
  have hEnd : last ∈ front ++ [last] := List.mem_append_right _ (List.mem_singleton_self _)
  have hLe : le last key := hLast last (by rw [List.getLast?_concat]; rfl)
  intro y hy
  rcases List.mem_append.mp hy with hFront | hSame
  · have hUpTo := (List.pairwise_append.mp hSorted).2.2 y hFront last (List.mem_singleton_self _)
    exact hOrder.trans y (hMem y hy) last (hMem last hEnd) key hKey hUpTo hLe
  · rwa [List.mem_singleton.mp hSame]

/-- The key goes behind all that are not above it. -/
theorem insert (h : StableSort le all xs (low ++ high)) (hOrder : Preorders le all)
    (hMem : ∀ y ∈ xs, y ∈ all) (hKey : key ∈ all) (hLow : ∀ y ∈ low.getLast?, le y key)
    (hHigh : ∀ y ∈ high, ¬ le y key) : StableSort le all (xs ++ [key]) (low ++ key :: high) := by
  have hAll : ∀ y ∈ low ++ high, y ∈ all := fun y hy => hMem y (h.perm.mem_iff.mp hy)
  obtain ⟨hSortedLow, hSortedHigh, hBetween⟩ := List.pairwise_append.mp h.sorted
  have hBelow := below_key hOrder hSortedLow (fun y hy => hAll y (List.mem_append_left _ hy)) hKey hLow
  have hAbove : ∀ y ∈ high, le key y := fun y hy =>
    (hOrder.total y (hAll y (List.mem_append_right _ hy)) key hKey).resolve_left (hHigh y hy)
  refine ⟨?_, ?_, fun x hx => ?_⟩
  · exact List.perm_middle.trans ((h.perm.cons key).trans (List.perm_append_singleton key xs).symm)
  · refine List.pairwise_append.mpr ⟨hSortedLow, List.pairwise_cons.mpr ⟨hAbove, hSortedHigh⟩, ?_⟩
    intro y hy z hz
    rcases List.mem_cons.mp hz with rfl | hz
    · exact hBelow y hy
    · exact hBetween y hy z hz
  · have hNone : le x key ∧ le key x → peers le x high = [] := by
      -- what is above the key is above its peers
      refine fun hPeer => peers_eq_nil fun y hy hBoth => hHigh y hy ?_
      exact hOrder.trans y (hAll y (List.mem_append_right _ hy)) x hx key hKey hBoth.2 hPeer.1
    calc peers le x (low ++ key :: high)
        = peers le x (low ++ high) ++ peers le x [key] := by
          rw [peers_append, peers_cons hNone, peers_append, List.append_assoc]
      _ = peers le x (xs ++ [key]) := by rw [h.stable x hx, peers_append]

end StableSort

end FactorForth.Library
