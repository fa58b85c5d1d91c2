import Mathlib.Algebra.Order.Ring.Int
import Mathlib.Data.List.Basic
import Mathlib.Data.List.TakeWhile

/-! Byte positions in a text that is stored as UTF-8. A text is a list of characters; a position is a
number of bytes, and it is a boundary when it stands between two characters or at an end. -/

namespace FactorForth.Library

def byteLen (cs : List Char) : Nat := (cs.map Char.utf8Size).sum

/-- The text in front of a position and the text behind it, if the position is a boundary. -/
def splitAtByte : List Char → Nat → Option (List Char × List Char)
  | cs, 0 => some ([], cs)
  | [], _ + 1 => none
  | c :: cs, n + 1 =>
    if c.utf8Size ≤ n + 1 then (splitAtByte cs (n + 1 - c.utf8Size)).map fun p => (c :: p.1, p.2)
    else none

def isCharBoundary (cs : List Char) (i : Nat) : Bool := (splitAtByte cs i).isSome

@[simp] theorem byteLen_nil : byteLen [] = 0 := rfl

@[simp] theorem byteLen_cons (c : Char) (cs : List Char) :
    byteLen (c :: cs) = c.utf8Size + byteLen cs := by
  rw [byteLen, List.map_cons, List.sum_cons, byteLen]

@[simp] theorem byteLen_append (xs ys : List Char) :
    byteLen (xs ++ ys) = byteLen xs + byteLen ys := by
  rw [byteLen, List.map_append, List.sum_append, byteLen, byteLen]

@[simp] theorem byteLen_reverse (cs : List Char) : byteLen cs.reverse = byteLen cs := by
  rw [byteLen, List.map_reverse, List.sum_reverse, byteLen]

theorem byteLen_eq_zero {cs : List Char} : byteLen cs = 0 ↔ cs = [] := by
  cases cs with
  | nil => simp
  | cons c cs =>
    have hPos := c.utf8Size_pos
    simp only [byteLen_cons, reduceCtorEq, iff_false]
    omega

theorem splitAtByte_append (front back : List Char) :
    splitAtByte (front ++ back) (byteLen front) = some (front, back) := by
  induction front with
  | nil => cases back <;> rfl
  | cons c front ih =>
    have hPos := c.utf8Size_pos
    obtain ⟨n, hn⟩ : ∃ n, byteLen (c :: front) = n + 1 :=
      ⟨c.utf8Size + byteLen front - 1, by rw [byteLen_cons]; omega⟩
    have hRest : n + 1 - c.utf8Size = byteLen front := by
      rw [← hn, byteLen_cons, Nat.add_sub_cancel_left]
    have hFits : c.utf8Size ≤ n + 1 := by
      rw [← hn, byteLen_cons]
      exact Nat.le_add_right _ _
    rw [hn, List.cons_append, splitAtByte, if_pos hFits, hRest, ih]
    rfl

theorem splitAtByte_some {cs front back : List Char} {i : Nat}
    (h : splitAtByte cs i = some (front, back)) : cs = front ++ back ∧ byteLen front = i := by
  induction cs generalizing i front with
  | nil =>
    cases i with
    | zero =>
      obtain ⟨rfl, rfl⟩ := Prod.mk.inj (Option.some.inj h)
      exact ⟨rfl, rfl⟩
    | succ n => cases h
  | cons c cs ih =>
    cases i with
    | zero =>
      obtain ⟨rfl, rfl⟩ := Prod.mk.inj (Option.some.inj h)
      exact ⟨rfl, rfl⟩
    | succ n =>
      rw [splitAtByte] at h
      split at h
      · next hFits =>
        obtain ⟨⟨front', back'⟩, hRest, hEq⟩ := Option.map_eq_some_iff.mp h
        obtain ⟨rfl, rfl⟩ := Prod.mk.inj hEq
        obtain ⟨hText, hLen⟩ := ih hRest
        refine ⟨?_, ?_⟩
        · rw [hText, List.cons_append]
        · rw [byteLen_cons, hLen]
          omega
      · cases h

/-- A boundary is where some text in front ends. -/
theorem isCharBoundary_iff {cs : List Char} {i : Nat} :
    isCharBoundary cs i = true ↔ ∃ front back, cs = front ++ back ∧ byteLen front = i := by
  rw [isCharBoundary, Option.isSome_iff_exists]
  constructor
  · rintro ⟨⟨front, back⟩, h⟩
    exact ⟨front, back, splitAtByte_some h⟩
  · rintro ⟨front, back, rfl, rfl⟩
    exact ⟨_, splitAtByte_append front back⟩

theorem isCharBoundary_append (front back : List Char) :
    isCharBoundary (front ++ back) (byteLen front) = true :=
  isCharBoundary_iff.mpr ⟨front, back, rfl, rfl⟩

theorem isCharBoundary_zero (cs : List Char) : isCharBoundary cs 0 = true :=
  isCharBoundary_append [] cs

theorem isCharBoundary_end (cs : List Char) : isCharBoundary cs (byteLen cs) = true := by
  have hEnd := isCharBoundary_append cs []
  rwa [List.append_nil] at hEnd

theorem isCharBoundary_le {cs : List Char} {i : Nat} (h : isCharBoundary cs i = true) :
    i ≤ byteLen cs := by
  obtain ⟨front, back, rfl, rfl⟩ := isCharBoundary_iff.mp h
  rw [byteLen_append]
  exact Nat.le_add_right _ _

/-- Behind a boundary the boundaries are those of the text behind it. -/
theorem isCharBoundary_behind (front back : List Char) (i : Nat) :
    isCharBoundary (front ++ back) (byteLen front + i) = isCharBoundary back i := by
  induction front with
  | nil => rw [List.nil_append, byteLen_nil, Nat.zero_add]
  | cons c front ih =>
    have hPos := c.utf8Size_pos
    obtain ⟨n, hn⟩ : ∃ n, byteLen (c :: front) + i = n + 1 :=
      ⟨c.utf8Size + byteLen front + i - 1, by rw [byteLen_cons]; omega⟩
    have hRest : n + 1 - c.utf8Size = byteLen front + i := by
      rw [← hn, byteLen_cons]
      omega
    have hFits : c.utf8Size ≤ n + 1 := by
      rw [← hn, byteLen_cons]
      omega
    rw [← ih, isCharBoundary, isCharBoundary, hn, List.cons_append, splitAtByte, if_pos hFits, hRest,
      Option.isSome_map]

/-- In front of a boundary they are those of the text in front. -/
theorem isCharBoundary_front {front : List Char} {i : Nat} (h : i ≤ byteLen front)
    (back : List Char) : isCharBoundary (front ++ back) i = isCharBoundary front i := by
  induction front generalizing i with
  | nil =>
    obtain rfl := Nat.le_zero.mp h
    rw [isCharBoundary_zero, isCharBoundary_zero]
  | cons c front ih =>
    cases i with
    | zero => rw [isCharBoundary_zero, isCharBoundary_zero]
    | succ n =>
      rw [byteLen_cons] at h
      rw [isCharBoundary, isCharBoundary, List.cons_append, splitAtByte, splitAtByte]
      split
      · rw [Option.isSome_map, Option.isSome_map]
        exact ih (by omega)
      · rfl

end FactorForth.Library
