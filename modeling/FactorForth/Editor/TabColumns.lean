import FactorForth.Editor.Commands
import FactorForth.Library.Nearest

/-! The columns of a line with tabs: where its characters are drawn, and which one a click means. -/

namespace FactorForth.Editor
open Library

/-! The loops. -/

def expandLoop : List Char → Nat → List Char → List Char
  | [], _, out => out
  | c :: cs, col, out =>
    if c = '\t' then
      let pad := tabWidth - col % tabWidth
      expandLoop cs (col + pad) (out ++ List.replicate pad ' ')
    else expandLoop cs (col + 1) (out ++ [c])

/-- `expand_line`, the line as it is drawn. -/
def expandLine (chars : List Char) : List Char := expandLoop chars 0 []

def columnLoop (charCol : Nat) : List Char → Nat → Nat → Nat
  | [], _, col => col
  | c :: cs, i, col =>
    if i = charCol then col
    else if c = '\t' then columnLoop charCol cs (i + 1) (col + (tabWidth - col % tabWidth))
    else columnLoop charCol cs (i + 1) (col + 1)

/-- `n` is how many characters the line has. -/
def bufferLoop (n displayCol : Nat) : List Char → Nat → Nat → Nat
  | [], _, _ => n
  | c :: cs, i, col =>
    if displayCol ≤ col then i
    else if c = '\t' then
      let pad := tabWidth - col % tabWidth
      if displayCol < col + pad then
        if displayCol ≤ col + pad / 2 then i else i + 1
      else bufferLoop n displayCol cs (i + 1) (col + pad)
    else bufferLoop n displayCol cs (i + 1) (col + 1)

def displayColToBuffer (chars : List Char) (displayCol : Nat) : Nat :=
  bufferLoop chars.length displayCol chars 0 0

/-! Columns. -/

/-- The column behind a character drawn at `col`. -/
def nextCol (col : Nat) (c : Char) : Nat :=
  if c = '\t' then col + (tabWidth - col % tabWidth) else col + 1

theorem lt_nextCol (col : Nat) (c : Char) : col < nextCol col c := by
  have hPad : col % tabWidth < tabWidth := Nat.mod_lt _ (by decide)
  rw [nextCol]
  split <;> omega

/-- The loop stops where the fold over the first characters does. -/
theorem columnLoop_eq (charCol : Nat) (later : List Char) : ∀ i col, i ≤ charCol →
    columnLoop charCol later i col = (later.take (charCol - i)).foldl nextCol col := by
  induction later with
  | nil =>
    intro i col _
    rw [List.take_nil]
    rfl
  | cons c later ih =>
    intro i col hi
    rw [columnLoop]
    by_cases hHere : i = charCol
    · rw [if_pos hHere, hHere, Nat.sub_self]
      rfl
    · have hMore : charCol - i = charCol - (i + 1) + 1 := by omega
      have hNext := ih (i + 1) (nextCol col c) (by omega)
      rw [if_neg hHere, hMore, List.take_succ_cons, List.foldl_cons, ← hNext, nextCol]
      split <;> rfl

theorem bufferColToDisplay_loop (chars : List Char) (charCol : Nat) :
    bufferColToDisplay chars charCol = columnLoop charCol chars 0 0 :=
  (columnLoop_eq charCol chars 0 0 (Nat.zero_le _)).symm

theorem bufferColToDisplay_succ (chars : List Char) {k : Nat} (hk : k < chars.length) :
    bufferColToDisplay chars (k + 1) = nextCol (bufferColToDisplay chars k) chars[k] := by
  rw [bufferColToDisplay, List.take_succ_eq_append_getElem hk, List.foldl_append]
  rfl

theorem growing_columns (chars : List Char) : Growing (bufferColToDisplay chars) chars.length := by
  refine growing_of_step fun k hk => ?_
  rw [bufferColToDisplay_succ chars hk]
  exact lt_nextCol _ _

theorem expandLoop_length (cs : List Char) : ∀ col out, out.length = col →
    (expandLoop cs col out).length = cs.foldl nextCol col := by
  induction cs with
  | nil => exact fun _ _ hOut => hOut
  | cons c cs ih =>
    intro col out hOut
    rw [expandLoop, List.foldl_cons, nextCol]
    split
    · refine ih _ _ ?_
      rw [List.length_append, List.length_replicate, hOut]
    · refine ih _ _ ?_
      rw [List.length_append, List.length_singleton, hOut]

theorem expandLine_length (chars : List Char) (k : Nat) :
    (expandLine (chars.take k)).length = bufferColToDisplay chars k :=
  expandLoop_length (chars.take k) 0 [] rfl

/-! Clicks. -/

/-- The loop never is behind the column it looks for. -/
theorem bufferLoop_nearest {chars : List Char} {c : Nat} (later : List Char) : ∀ done, chars = done ++ later →
    bufferColToDisplay chars done.length ≤ c →
    Nearest (bufferColToDisplay chars) chars.length c
      (bufferLoop chars.length c later done.length (bufferColToDisplay chars done.length)) := by
  have hGrow := growing_columns chars
  induction later with
  | nil =>
    intro done hLine hCol
    rw [List.append_nil] at hLine
    subst hLine
    exact hGrow.nearest_last hCol
  | cons x later ih =>
    intro done hLine hCol
    have hIn : done.length < chars.length := by
      rw [hLine, List.length_append, List.length_cons]
      omega
    have hChar : chars[done.length] = x := by
      simp only [hLine, List.getElem_append_right (Nat.le_refl _), Nat.sub_self, List.getElem_cons_zero]
    have hNext := bufferColToDisplay_succ chars hIn
    rw [hChar] at hNext
    have hLength : (done ++ [x]).length = done.length + 1 := by
      rw [List.length_append, List.length_singleton]
    have hRest := ih (done ++ [x]) (by rw [hLine, List.append_assoc]; rfl)
    rw [hLength] at hRest
    rw [bufferLoop]
    by_cases hHere : c ≤ bufferColToDisplay chars done.length
    · rw [if_pos hHere, hHere.antisymm hCol]
      exact hGrow.nearest_self hIn.le
    · rw [if_neg hHere]
      by_cases hTab : x = '\t'
      · rw [nextCol, if_pos hTab] at hNext
        rw [if_pos hTab]
        dsimp only
        rw [← hNext]
        by_cases hInside : c < bufferColToDisplay chars (done.length + 1)
        · have hNear := hGrow.nearest_between hIn (Nat.lt_of_not_le hHere) hInside
          have hMiddle : (c - bufferColToDisplay chars done.length ≤
              bufferColToDisplay chars (done.length + 1) - c) ↔
              c ≤ bufferColToDisplay chars done.length +
                (tabWidth - bufferColToDisplay chars done.length % tabWidth) / 2 := by
            omega
          simp only [hMiddle] at hNear
          rw [if_pos hInside]
          exact hNear
        · rw [if_neg hInside]
          exact hRest (Nat.le_of_not_lt hInside)
      · rw [nextCol, if_neg hTab] at hNext
        rw [if_neg hTab, ← hNext]
        exact hRest (by omega)

theorem displayColToBuffer_nearest (chars : List Char) (c : Nat) :
    Nearest (bufferColToDisplay chars) chars.length c (displayColToBuffer chars c) :=
  bufferLoop_nearest chars [] rfl (Nat.zero_le c)

/-- Columns grow along a line, are those of the drawn line, and lead back to their characters; every
other column leads to the nearest one. -/
theorem tab_columns (chars : List Char) :
    (∀ k ≤ chars.length, displayColToBuffer chars (bufferColToDisplay chars k) = k) ∧
      (∀ j k, j < k → k ≤ chars.length → bufferColToDisplay chars j < bufferColToDisplay chars k) ∧
      (∀ k ≤ chars.length, bufferColToDisplay chars k = (expandLine (chars.take k)).length) ∧
      ∀ c, Nearest (bufferColToDisplay chars) chars.length c (displayColToBuffer chars c) := by
  refine ⟨fun k hk => ?_, growing_columns chars, fun k _ => (expandLine_length chars k).symm,
    displayColToBuffer_nearest chars⟩
  exact (displayColToBuffer_nearest chars _).eq_of_pos (growing_columns chars) hk

end FactorForth.Editor
