import Mathlib.Algebra.Order.Ring.Int
import Mathlib.Data.List.Basic

/-! The lines of a text between its separators, and how they grow with the text. -/

namespace FactorForth.Library
variable {α : Type}

/-- One more character at the end of the last line. -/
def extendLast (xs : List (List α)) (c : α) : List (List α) :=
  xs.dropLast ++ [xs.getLastD [] ++ [c]]

theorem extendLast_append (xs : List (List α)) {ys : List (List α)} (hys : ys ≠ []) (c : α) :
    extendLast (xs ++ ys) c = xs ++ extendLast ys c := by
  rw [extendLast, extendLast, List.dropLast_append_of_ne_nil hys, List.append_assoc,
    List.getLastD_eq_getLast?, List.getLastD_eq_getLast?, List.getLast?_append_of_ne_nil _ hys]

theorem extendLast_concat (xs : List (List α)) (last : List α) (c : α) :
    extendLast (xs ++ [last]) c = xs ++ [last ++ [c]] :=
  extendLast_append xs (List.cons_ne_nil last []) c

theorem extendLast_modifyHead (f : List α → List α) (hf : ∀ l c, f (l ++ [c]) = f l ++ [c])
    {xs : List (List α)} (hxs : xs ≠ []) (c : α) :
    extendLast (xs.modifyHead f) c = (extendLast xs c).modifyHead f := by
  cases xs with
  | nil => exact absurd rfl hxs
  | cons x xs =>
    cases xs with
    | nil => exact congrArg (fun l => [l]) (hf x c).symm
    | cons y ys => rfl

variable [DecidableEq α] (nl : α)

/-- The lines between the separators. The last one has none behind it. -/
def lines : List α → List (List α)
  | [] => [[]]
  | c :: text => if c = nl then [] :: lines text else (lines text).modifyHead (c :: ·)

theorem lines_ne_nil (text : List α) : lines nl text ≠ [] := by
  induction text with
  | nil => exact List.cons_ne_nil _ _
  | cons c text ih =>
    rw [lines]
    split
    · exact List.cons_ne_nil _ _
    · cases hlines : lines nl text with
      | nil => exact absurd hlines ih
      | cons line rest => exact List.cons_ne_nil _ _

theorem lines_separator (text : List α) : lines nl (text ++ [nl]) = lines nl text ++ [[]] := by
  induction text with
  | nil => simp [lines]
  | cons c text ih =>
    rw [List.cons_append, lines, lines, ih]
    split
    · rfl
    · cases hlines : lines nl text with
      | nil => exact absurd hlines (lines_ne_nil nl text)
      | cons line rest => rfl

theorem lines_snoc (text : List α) {c : α} (hc : c ≠ nl) :
    lines nl (text ++ [c]) = extendLast (lines nl text) c := by
  induction text with
  | nil => simp [lines, hc, extendLast]
  | cons d text ih =>
    rw [List.cons_append, lines, lines, ih]
    split
    · exact (extendLast_append [[]] (lines_ne_nil nl text) c).symm
    · exact (extendLast_modifyHead (d :: ·) (fun _ _ => rfl) (lines_ne_nil nl text) c).symm

theorem lines_split (text : List α) :
    ∃ init last, lines nl text = init ++ [last] :=
  ⟨_, _, (List.dropLast_concat_getLast (lines_ne_nil nl text)).symm⟩

/-! Where the lines stand. -/

/-- The place at which a line starts: behind the lines before it, each with its separator. -/
def lineOffset (ls : List (List α)) (i : Nat) : Nat :=
  ((ls.take i).map fun line => line.length + 1).sum

omit [DecidableEq α] in
@[simp] theorem lineOffset_zero (ls : List (List α)) : lineOffset ls 0 = 0 := rfl

omit [DecidableEq α] in
theorem lineOffset_cons (line : List α) (ls : List (List α)) (i : Nat) :
    lineOffset (line :: ls) (i + 1) = line.length + 1 + lineOffset ls i := by
  rw [lineOffset, List.take_succ_cons, List.map_cons, List.sum_cons, lineOffset]

omit [DecidableEq α] in
theorem lineOffset_succ (ls : List (List α)) {i : Nat} {line : List α} (h : ls[i]? = some line) :
    lineOffset ls (i + 1) = lineOffset ls i + line.length + 1 := by
  rw [lineOffset, List.take_add_one, h, Option.toList_some, List.map_append, List.sum_append,
    List.map_singleton, List.sum_singleton, lineOffset, Nat.add_assoc]

omit [DecidableEq α] in
/-- A longer first line moves the ones behind it. -/
theorem lineOffset_modifyHead (c : α) {ls : List (List α)} (hls : ls ≠ []) (i : Nat) :
    lineOffset (ls.modifyHead (c :: ·)) (i + 1) = lineOffset ls (i + 1) + 1 := by
  cases ls with
  | nil => exact absurd rfl hls
  | cons line rest =>
    rw [List.modifyHead_cons, lineOffset_cons, lineOffset_cons, List.length_cons]
    omega

theorem lines_length (text : List α) : (lines nl text).length = text.count nl + 1 := by
  induction text with
  | nil => rfl
  | cons c text ih =>
    rw [lines, List.count_cons]
    by_cases hc : c = nl
    · rw [if_pos hc, List.length_cons, ih, if_pos (beq_iff_eq.mpr hc)]
    · rw [if_neg hc, List.length_modifyHead, ih, if_neg fun h => hc (beq_iff_eq.mp h), Nat.add_zero]

/-- A line stands in the text behind as many separators as there are lines before it, and holds none
itself; behind it comes a separator, or nothing if it is the last. -/
theorem lines_at {text : List α} {i : Nat} {line : List α} (h : (lines nl text)[i]? = some line) :
    ∃ before rest, text = before ++ line ++ rest ∧ before.length = lineOffset (lines nl text) i ∧
      before.count nl = i ∧ nl ∉ line ∧
      (if i + 1 = (lines nl text).length then rest = [] else rest.head? = some nl) := by
  induction text generalizing i line with
  | nil =>
    cases i with
    | zero =>
      obtain rfl : [] = line := Option.some.inj h
      exact ⟨[], [], rfl, rfl, rfl, List.not_mem_nil, rfl⟩
    | succ i => cases h
  | cons c text ih =>
    have hne := lines_ne_nil nl text
    rw [lines] at h ⊢
    by_cases hc : c = nl
    · subst hc
      rw [if_pos rfl] at h ⊢
      cases i with
      | zero =>
        obtain rfl : [] = line := Option.some.inj h
        refine ⟨[], c :: text, rfl, rfl, rfl, List.not_mem_nil, ?_⟩
        have hLast : ¬ 0 + 1 = ([] :: lines c text).length :=
          fun hOne => hne (List.length_eq_zero_iff.mp (Nat.succ.inj hOne).symm)
        rw [if_neg hLast]
        rfl
      | succ i =>
        obtain ⟨before, rest, hText, hBefore, hCount, hFree, hEnd⟩ := ih h
        refine ⟨c :: before, rest, congrArg (List.cons c) hText, ?_, ?_, hFree, ?_⟩
        · rw [lineOffset_cons, List.length_cons, hBefore, List.length_nil]
          omega
        · rw [List.count_cons_self, hCount]
        · simpa only [List.length_cons, Nat.add_right_cancel_iff] using hEnd
    · rw [if_neg hc] at h ⊢
      rw [List.length_modifyHead]
      cases i with
      | zero =>
        obtain ⟨first, hFirst, rfl⟩ : ∃ first, (lines nl text)[0]? = some first ∧ c :: first = line := by
          cases hlines : lines nl text with
          | nil => exact absurd hlines hne
          | cons first rest =>
            rw [hlines] at h
            exact ⟨first, rfl, Option.some.inj h⟩
        obtain ⟨before, rest, hText, hBefore, _, hFree, hEnd⟩ := ih hFirst
        obtain rfl : before = [] := List.length_eq_zero_iff.mp hBefore
        exact ⟨[], rest, congrArg (List.cons c) hText, rfl, rfl,
          fun hMem => (List.mem_cons.mp hMem).elim (fun hEq => hc hEq.symm) hFree, hEnd⟩
      | succ i =>
        have h' : (lines nl text)[i + 1]? = some line := by
          cases hlines : lines nl text with
          | nil => exact absurd hlines hne
          | cons first rest =>
            rw [hlines] at h
            exact h
        obtain ⟨before, rest, hText, hBefore, hCount, hFree, hEnd⟩ := ih h'
        refine ⟨c :: before, rest, congrArg (List.cons c) hText, ?_, ?_, hFree, hEnd⟩
        · rw [lineOffset_modifyHead c hne, List.length_cons, hBefore]
        · rw [List.count_cons_of_ne hc, hCount]

/-- Every place up to the end of the text lies on a line, or right behind it. -/
theorem exists_position (text : List α) {pos : Nat} (h : pos ≤ text.length) :
    ∃ i line col, (lines nl text)[i]? = some line ∧ col ≤ line.length ∧
      lineOffset (lines nl text) i + col = pos := by
  induction text generalizing pos with
  | nil => exact ⟨0, [], 0, rfl, Nat.le_refl 0, (Nat.le_zero.mp h).symm⟩
  | cons c text ih =>
    have hne := lines_ne_nil nl text
    rw [lines]
    by_cases hc : c = nl
    · rw [if_pos hc]
      cases pos with
      | zero => exact ⟨0, [], 0, rfl, Nat.le_refl 0, rfl⟩
      | succ pos =>
        obtain ⟨i, line, col, hLine, hCol, hPos⟩ := ih (Nat.le_of_succ_le_succ h)
        refine ⟨i + 1, line, col, hLine, hCol, ?_⟩
        rw [lineOffset_cons, List.length_nil]
        omega
    · rw [if_neg hc]
      cases pos with
      | zero =>
        cases hlines : lines nl text with
        | nil => exact absurd hlines hne
        | cons first rest => exact ⟨0, c :: first, 0, rfl, Nat.zero_le _, rfl⟩
      | succ pos =>
        obtain ⟨i, line, col, hLine, hCol, hPos⟩ := ih (Nat.le_of_succ_le_succ h)
        cases hlines : lines nl text with
        | nil => exact absurd hlines hne
        | cons first rest =>
          rw [hlines] at hLine hPos
          cases i with
          | zero =>
            obtain rfl : first = line := Option.some.inj hLine
            refine ⟨0, c :: first, col + 1, rfl, Nat.succ_le_succ hCol, ?_⟩
            rw [lineOffset_zero] at hPos ⊢
            omega
          | succ i =>
            refine ⟨i + 1, line, col, hLine, hCol, ?_⟩
            rw [lineOffset_modifyHead c (List.cons_ne_nil first rest)]
            omega

end FactorForth.Library
