import Mathlib.Data.List.Nodup

/-! What a row of addresses finds in a heap, and what a write or a new cell does to it. -/

namespace FactorForth.Library
variable {β : Type}

/-- What the heap holds at each of the addresses. -/
def found (h : List β) (addrs : List Nat) : List (Option β) := addrs.map (h[·]?)

section Heaps
variable {h : List β} {addrs : List Nat}

@[simp] theorem length_found : (found h addrs).length = addrs.length := List.length_map _

theorem found_append_addrs (more : List Nat) :
    found h (addrs ++ more) = found h addrs ++ found h more := List.map_append

theorem found_getElem? (i : Nat) : (found h addrs)[i]? = addrs[i]?.map (h[·]?) := List.getElem?_map

/-- Cells behind those of the heap change nothing at its addresses. -/
theorem found_append (hIn : ∀ a ∈ addrs, a < h.length) (news : List β) :
    found (h ++ news) addrs = found h addrs := by
  refine List.map_congr_left fun a ha => ?_
  exact List.getElem?_append_left (hIn a ha)

/-- A write at one of distinct addresses changes what is found there alone. -/
theorem found_set (hDistinct : addrs.Nodup) {i a : Nat} (hi : addrs[i]? = some a) (ha : a < h.length)
    (s : β) : found (h.set a s) addrs = (found h addrs).set i (some s) := by
  refine List.ext_getElem? fun j => ?_
  rw [List.getElem?_set, found_getElem?, found_getElem?, length_found]
  obtain ⟨hiLess, hiEq⟩ := List.getElem?_eq_some_iff.mp hi
  by_cases hij : i = j
  · subst hij
    rw [if_pos rfl, if_pos hiLess, hi, Option.map_some, List.getElem?_set_self ha]
  · rw [if_neg hij]
    cases hj : addrs[j]? with
    | none => rfl
    | some b =>
      obtain ⟨hjLess, hjEq⟩ := List.getElem?_eq_some_iff.mp hj
      have hOther : a ≠ b := by
        rintro rfl
        exact hij ((hDistinct.getElem_inj_iff).mp (hiEq.trans hjEq.symm))
      rw [Option.map_some, Option.map_some, List.getElem?_set_ne hOther]

theorem nodup_of_length (h : addrs.length ≤ 1) : addrs.Nodup := by
  match addrs, h with
  | [], _ => exact List.nodup_nil
  | [a], _ => exact List.nodup_singleton a

end Heaps
end FactorForth.Library
