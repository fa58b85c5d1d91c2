import FactorForth.Library.Lines

/-! Text as it stands in rows: each line cut into rows of a fixed width, and how the rows grow with the
text. -/

namespace FactorForth.Library
variable {α : Type}

/-- The rows of a line. A row is full before the next one begins, and an empty line has one row. -/
def rowsOfLine (cols : Nat) (line : List α) : List (List α) :=
  if line.length ≤ cols ∨ cols = 0 then [line]
  else line.take cols :: rowsOfLine cols (line.drop cols)
termination_by line.length
decreasing_by
  rw [List.length_drop]
  omega

theorem rowsOfLine_short {cols : Nat} {line : List α} (hshort : line.length ≤ cols) :
    rowsOfLine cols line = [line] := by
  rw [rowsOfLine, if_pos (Or.inl hshort)]

theorem rowsOfLine_long {cols : Nat} (hcols : 0 < cols) {line : List α}
    (hlong : cols < line.length) :
    rowsOfLine cols line = line.take cols :: rowsOfLine cols (line.drop cols) := by
  rw [rowsOfLine, if_neg (by omega)]

theorem rowsOfLine_ne_nil (cols : Nat) (line : List α) : rowsOfLine cols line ≠ [] := by
  rw [rowsOfLine]
  split
  · exact List.cons_ne_nil _ _
  · exact List.cons_ne_nil _ _

/-- One more character goes behind the last row, or begins a new one where that row is full. -/
def growRows (cols : Nat) (rows : List (List α)) (c : α) : List (List α) :=
  if (rows.getLastD []).length < cols then extendLast rows c else rows ++ [[c]]

theorem growRows_append (cols : Nat) (xs : List (List α)) {ys : List (List α)} (hys : ys ≠ [])
    (c : α) : growRows cols (xs ++ ys) c = xs ++ growRows cols ys c := by
  have hlast : (xs ++ ys).getLastD [] = ys.getLastD [] := by
    rw [List.getLastD_eq_getLast?, List.getLastD_eq_getLast?, List.getLast?_append_of_ne_nil _ hys]
  rw [growRows, growRows, hlast]
  split
  · exact extendLast_append xs hys c
  · rw [List.append_assoc]

theorem growRows_singleton (cols : Nat) (row : List α) (c : α) :
    growRows cols [row] c = if row.length < cols then [row ++ [c]] else [row, [c]] := rfl

theorem rowsOfLine_snoc {cols : Nat} (hcols : 0 < cols) (line : List α) (c : α) :
    rowsOfLine cols (line ++ [c]) = growRows cols (rowsOfLine cols line) c := by
  fun_induction rowsOfLine cols line with
  | case1 line hshort =>
    have hlength : line.length ≤ cols := by omega
    rw [growRows_singleton]
    split
    · rename_i hroom
      exact rowsOfLine_short (by rw [List.length_append]; exact hroom)
    · have htake : (line ++ [c]).take cols = line := by
        rw [List.take_append_of_le_length (by omega), List.take_of_length_le hlength]
      have hdrop : (line ++ [c]).drop cols = [c] := by
        rw [List.drop_append_of_le_length (by omega), List.drop_of_length_le hlength,
          List.nil_append]
      have hlong : cols < (line ++ [c]).length := by
        rw [List.length_append, List.length_singleton]
        omega
      have hone : [c].length ≤ cols := hcols
      rw [rowsOfLine_long hcols hlong, htake, hdrop, rowsOfLine_short hone]
  | case2 line hlong ih =>
    have hmore : cols < (line ++ [c]).length := by
      rw [List.length_append]
      omega
    rw [rowsOfLine_long hcols hmore, List.take_append_of_le_length (by omega),
      List.drop_append_of_le_length (by omega), ih]
    exact (growRows_append cols [line.take cols] (rowsOfLine_ne_nil cols _) c).symm

theorem rowsOfLine_length {cols : Nat} (hcols : 0 < cols) (line : List α) :
    ∀ row ∈ rowsOfLine cols line, row.length ≤ cols := by
  fun_induction rowsOfLine cols line with
  | case1 line hshort =>
    intro row hrow
    obtain rfl := List.mem_singleton.mp hrow
    omega
  | case2 line hlong ih =>
    rw [List.forall_mem_cons]
    exact ⟨List.length_take_le cols line, ih⟩

variable [DecidableEq α] (nl : α) {cols : Nat}

/-- The rows of a text. -/
def rowsOf (cols : Nat) (text : List α) : List (List α) :=
  (lines nl text).flatMap (rowsOfLine cols)

theorem rowsOf_nil (cols : Nat) : rowsOf nl cols [] = [[]] := by
  rw [rowsOf, lines, List.flatMap_singleton, rowsOfLine_short (Nat.zero_le cols)]

theorem rowsOf_ne_nil (cols : Nat) (text : List α) : rowsOf nl cols text ≠ [] := by
  obtain ⟨init, last, hlines⟩ := lines_split nl text
  rw [rowsOf, hlines, List.flatMap_append, List.flatMap_singleton]
  exact List.append_ne_nil_of_right_ne_nil _ (rowsOfLine_ne_nil cols last)

theorem rowsOf_separator (cols : Nat) (text : List α) :
    rowsOf nl cols (text ++ [nl]) = rowsOf nl cols text ++ [[]] := by
  rw [rowsOf, lines_separator, List.flatMap_append, List.flatMap_singleton,
    rowsOfLine_short (Nat.zero_le cols)]
  rfl

theorem rowsOf_snoc (hcols : 0 < cols) (text : List α) {c : α} (hc : c ≠ nl) :
    rowsOf nl cols (text ++ [c]) = growRows cols (rowsOf nl cols text) c := by
  obtain ⟨init, last, hlines⟩ := lines_split nl text
  rw [rowsOf, rowsOf, lines_snoc nl text hc, hlines, extendLast_concat, List.flatMap_append,
    List.flatMap_append, List.flatMap_singleton, List.flatMap_singleton, rowsOfLine_snoc hcols,
    growRows_append cols _ (rowsOfLine_ne_nil cols last)]

end FactorForth.Library
