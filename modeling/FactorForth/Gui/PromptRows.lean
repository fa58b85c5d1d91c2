import FactorForth.Library.Wrapping

/-! The prompt of the console in rows. The input is cut at its line ends and each line at the width; one
row carries the caret, whatever the width. -/

namespace FactorForth.Gui
open FactorForth.Library

/-- A row of the console. The first row of a line of input has the prompt on its left. -/
structure VRow where
  text : List Char
  promptHead : Option String
  caretCol : Option Nat
deriving DecidableEq, Repr

def prompt : String := "> "

def contPrompt : String := ". "

/-- The loop over the characters of a line. `row` is the slice from the start of the row to the character
at hand, `col` its length. -/
def wrapLoop (cols : Nat) (caretAt : Option Nat) : List Char → (row : List Char) →
    (col rowStartChar : Nat) → (head : Option String) → List VRow
  | [], row, col, rowStartChar, head =>
    if row = [] then []
    else
      [⟨row, head, caretAt.bind fun abs =>
        if rowStartChar ≤ abs ∧ abs ≤ rowStartChar + col then some (abs - rowStartChar) else none⟩]
  | c :: rest, row, col, rowStartChar, head =>
    if col = cols then
      ⟨row, head, caretAt.bind fun abs =>
        if rowStartChar ≤ abs ∧ abs < rowStartChar + col then some (abs - rowStartChar) else none⟩ ::
        wrapLoop cols caretAt rest [c] 1 (rowStartChar + col) none
    else wrapLoop cols caretAt rest (row ++ [c]) (col + 1) rowStartChar head

def wrapIntoRows (line : List Char) (cols : Nat) (promptHead : Option String)
    (caretAt : Option Nat) : List VRow :=
  if line = [] then [⟨[], promptHead, if promptHead.isSome then caretAt else none⟩]
  else wrapLoop cols caretAt line [] 0 0 promptHead

def caretAtForRemainder (caretAbs promptChars : Nat) : Option Nat :=
  if promptChars < caretAbs then some (caretAbs - promptChars) else none

def wrapPromptRow (input : List Char) (promptStr : String) (promptChars : Nat)
    (caretAbs : Option Nat) (cols : Nat) : List VRow :=
  if cols ≤ promptChars then
    ⟨[], some promptStr, caretAbs.filter (· ≤ promptChars)⟩ ::
      wrapIntoRows input cols none (caretAbs.bind (caretAtForRemainder · promptChars))
  else if input = [] then [⟨[], some promptStr, caretAbs.map (min · cols)⟩]
  else
    let headEnd := min (cols - promptChars) input.length
    let headRow : VRow :=
      ⟨input.take headEnd, some promptStr, caretAbs.filter (· ≤ promptChars + headEnd)⟩
    if headEnd = input.length then [headRow]
    else
      let restCaret :=
        (caretAbs.filter (promptChars + headEnd < ·)).map fun abs => abs - promptChars - headEnd
      headRow :: wrapIntoRows (input.drop headEnd) cols none restCaret

/-- The loop over the input; `rest` is what stands behind the character `i`. -/
def promptLoop (chars : List Char) (cursorIdx promptChars cols : Nat) : (rest : List Char) →
    (logicalIdx lineStart i : Nat) → List VRow
  | [], logicalIdx, lineStart, i => lineRows logicalIdx lineStart i
  | c :: rest, logicalIdx, lineStart, i =>
    if c = '\n' then
      lineRows logicalIdx lineStart i ++
        promptLoop chars cursorIdx promptChars cols rest (logicalIdx + 1) (i + 1) (i + 1)
    else promptLoop chars cursorIdx promptChars cols rest logicalIdx lineStart (i + 1)
where
  lineRows (logicalIdx lineStart i : Nat) : List VRow :=
    wrapPromptRow ((chars.drop lineStart).take (i - lineStart))
      (if logicalIdx = 0 then prompt else contPrompt) promptChars
      (if lineStart ≤ cursorIdx ∧ cursorIdx ≤ i then some (promptChars + (cursorIdx - lineStart))
       else none) cols

def wrapPromptBlock (input : List Char) (cursorIdx promptChars cols : Nat) : List VRow :=
  if input = [] then wrapPromptRow [] prompt promptChars (some promptChars) cols
  else promptLoop input cursorIdx promptChars cols input 0 0 0

namespace VRow

/-- The columns that the prompt takes. -/
def lead (promptChars : Nat) (row : VRow) : Nat := if row.promptHead.isSome then promptChars else 0

end VRow

/-- Where the text of a row starts in the input: behind the rows before it and the line ends between. -/
def rowStart (before : List VRow) (row : VRow) : Nat :=
  (before.map (·.text.length)).sum + (before ++ [row]).tail.countP (·.promptHead.isSome)

def NoCaret (rows : List VRow) : Prop := ∀ row ∈ rows, row.caretCol = none

/-- One row alone carries the caret, and it points at `pos`. -/
def CaretAt (promptChars : Nat) (rows : List VRow) (pos : Nat) : Prop :=
  ∃ before row behind col, rows = before ++ row :: behind ∧ row.caretCol = some col ∧
    NoCaret before ∧ NoCaret behind ∧ rowStart before row + col = row.lead promptChars + pos

/-- The rows of one line: the first has the prompt. -/
def OpensLine (rows : List VRow) : Prop :=
  ∃ head rest, rows = head :: rest ∧ head.promptHead.isSome = true ∧
    ∀ row ∈ rest, row.promptHead.isSome = false

/-- A row is no wider than the width. A prompt that is wider than that has no text beside it. -/
def Fits (promptChars cols : Nat) (row : VRow) : Prop :=
  row.text.length ≤ cols ∧ (row.text ≠ [] → row.lead promptChars + row.text.length ≤ cols)

variable {promptChars cols : Nat}

theorem NoCaret.append {rows more : List VRow} (h : NoCaret rows) (hMore : NoCaret more) :
    NoCaret (rows ++ more) := fun row hRow => (List.mem_append.mp hRow).elim (h row) (hMore row)

theorem NoCaret.cons {row : VRow} {rows : List VRow} (hRow : row.caretCol = none)
    (h : NoCaret rows) : NoCaret (row :: rows) := List.forall_mem_cons.mpr ⟨hRow, h⟩

theorem CaretAt.head {row : VRow} {rows : List VRow} {pos : Nat}
    (hCol : row.caretCol = some (row.lead promptChars + pos)) (h : NoCaret rows) :
    CaretAt promptChars (row :: rows) pos := by
  refine ⟨[], row, rows, _, rfl, hCol, fun _ h => absurd h List.not_mem_nil, h, ?_⟩
  simp [rowStart]

theorem CaretAt.prompt {text : List Char} {promptStr : String} {caretCol : Option Nat}
    {rows : List VRow} {pos : Nat} (hCol : caretCol = some (promptChars + pos)) (h : NoCaret rows) :
    CaretAt promptChars (⟨text, some promptStr, caretCol⟩ :: rows) pos := CaretAt.head hCol h

/-- Rows without a prompt go on where the row before them ends. -/
theorem CaretAt.cons {row : VRow} {rows : List VRow} {pos total : Nat}
    (hRow : row.caretCol = none) (hPlain : ∀ r ∈ rows, r.promptHead.isSome = false)
    (h : CaretAt promptChars rows pos) (hTotal : row.text.length + pos = total) :
    CaretAt promptChars (row :: rows) total := by
  subst hTotal
  obtain ⟨before, here, behind, col, rfl, hCol, hBefore, hBehind, hStart⟩ := h
  refine ⟨row :: before, here, behind, col, rfl, hCol, hBefore.cons hRow, hBehind, ?_⟩
  have hHeads : ∀ r ∈ before ++ [here], ¬ r.promptHead.isSome = true := by
    intro r hr
    have hMem : r ∈ before ++ here :: behind := by
      rw [← List.singleton_append, ← List.append_assoc]
      exact List.mem_append_left _ hr
    simp [hPlain r hMem]
  have hNone := List.countP_eq_zero.mpr hHeads
  have hNoneTail := List.countP_eq_zero.mpr fun r hr => hHeads r (List.mem_of_mem_tail hr)
  rw [rowStart, hNoneTail] at hStart
  rw [rowStart, List.map_cons, List.sum_cons, List.cons_append, List.tail_cons, hNone]
  omega

theorem CaretAt.append {rows more : List VRow} {pos : Nat} (h : CaretAt promptChars rows pos)
    (hMore : NoCaret more) : CaretAt promptChars (rows ++ more) pos := by
  obtain ⟨before, here, behind, col, rfl, hCol, hBefore, hBehind, hStart⟩ := h
  exact ⟨before, here, behind ++ more, col, by simp, hCol, hBefore, hBehind.append hMore, hStart⟩

/-- A line end stands between the rows of a line and those of the next. -/
theorem CaretAt.behind {line rows : List VRow} {pos : Nat} (hLine : OpensLine line)
    (hNone : NoCaret line) (hRows : ∃ head rest, rows = head :: rest ∧ head.promptHead.isSome = true)
    (h : CaretAt promptChars rows pos) :
    CaretAt promptChars (line ++ rows) ((line.map (·.text.length)).sum + 1 + pos) := by
  obtain ⟨before, here, behind, col, rfl, hCol, hBefore, hBehind, hStart⟩ := h
  refine ⟨line ++ before, here, behind, col, by simp, hCol, hNone.append hBefore, hBehind, ?_⟩
  obtain ⟨head, rest, rfl, _, hPlain⟩ := hLine
  have hZero : rest.countP (·.promptHead.isSome) = 0 :=
    List.countP_eq_zero.mpr fun r hr => by simp [hPlain r hr]
  have hOne : (before ++ [here]).countP (·.promptHead.isSome) =
      (before ++ [here]).tail.countP (·.promptHead.isSome) + 1 := by
    obtain ⟨first, others, hFirst, hHead⟩ := hRows
    cases before with
    | nil =>
      obtain ⟨rfl, _⟩ := List.cons.inj hFirst
      simp [hHead]
    | cons r before =>
      obtain ⟨rfl, _⟩ := List.cons.inj hFirst
      simp [hHead]
  have hTail : (head :: rest ++ before ++ [here]).tail = rest ++ (before ++ [here]) := by
    rw [List.append_assoc, List.cons_append, List.tail_cons]
  rw [rowStart] at hStart
  rw [rowStart, hTail, List.countP_append, hZero, hOne, List.map_append, List.sum_append]
  omega

/-! The rows of one line. -/

section Line
variable (hCols : 0 < cols) (caretAt : Option Nat)
include hCols

theorem wrapLoop_text (rest : List Char) {row : List Char} (rowStartChar : Nat)
    (head : Option String) (hNe : row ++ rest ≠ []) (hRow : row.length ≤ cols) :
    (wrapLoop cols caretAt rest row row.length rowStartChar head).map VRow.text =
      rowsOfLine cols (row ++ rest) := by
  induction rest generalizing row rowStartChar head with
  | nil =>
    rw [List.append_nil] at hNe ⊢
    rw [wrapLoop, if_neg hNe, rowsOfLine_short hRow]
    rfl
  | cons c rest ih =>
    rw [wrapLoop]
    split
    · rename_i hFull
      have hLong : cols < (row ++ c :: rest).length := by
        rw [List.length_append, List.length_cons]
        omega
      rw [List.map_cons, rowsOfLine_long hCols hLong, ← hFull, List.take_left', List.drop_left', hFull]
      · exact congrArg _ (ih _ _ (List.cons_ne_nil c rest) hCols)
      · rfl
      · rfl
    · have hRoom : (row ++ [c]).length ≤ cols := by
        rw [List.length_append, List.length_singleton]
        omega
      have hNext := ih rowStartChar head (by simp) hRoom
      rw [List.length_append, List.length_singleton, List.append_assoc] at hNext
      exact hNext

omit hCols in
theorem wrapLoop_plain (rest row : List Char) (col rowStartChar : Nat) :
    ∀ r ∈ wrapLoop cols caretAt rest row col rowStartChar none, r.promptHead.isSome = false := by
  induction rest generalizing row col rowStartChar with
  | nil =>
    rw [wrapLoop]
    split
    · exact fun _ h => absurd h List.not_mem_nil
    · intro r hr
      rw [List.mem_singleton.mp hr]
      rfl
  | cons c rest ih =>
    rw [wrapLoop]
    split
    · exact List.forall_mem_cons.mpr ⟨rfl, ih _ _ _⟩
    · exact ih _ _ _

omit hCols in
/-- A caret before the row is in none of the rows from there on. -/
theorem wrapLoop_noCaret (rest row : List Char) (col rowStartChar : Nat) (head : Option String)
    (hOut : ∀ abs, caretAt = some abs → abs < rowStartChar) :
    NoCaret (wrapLoop cols caretAt rest row col rowStartChar head) := by
  have hNone : ∀ (p : Nat → Prop) [DecidablePred p], (caretAt.bind fun abs =>
      if rowStartChar ≤ abs ∧ p abs then some (abs - rowStartChar) else none) = none := by
    intro p _
    refine Option.bind_eq_none_iff.mpr fun abs hAbs => if_neg fun hIn => ?_
    exact absurd hIn.1 (Nat.not_le.mpr (hOut abs hAbs))
  induction rest generalizing row col rowStartChar head with
  | nil =>
    rw [wrapLoop]
    split
    · exact fun _ h => absurd h List.not_mem_nil
    · exact NoCaret.cons (hNone _) fun _ h => absurd h List.not_mem_nil
  | cons c rest ih =>
    rw [wrapLoop]
    split
    · have hLater : ∀ abs, caretAt = some abs → abs < rowStartChar + col :=
        fun abs hAbs => Nat.lt_of_lt_of_le (hOut abs hAbs) (Nat.le_add_right _ _)
      refine NoCaret.cons (hNone _) (ih _ _ _ _ hLater fun p _ => ?_)
      refine Option.bind_eq_none_iff.mpr fun abs hAbs => if_neg fun hIn => ?_
      exact absurd hIn.1 (Nat.not_le.mpr (hLater abs hAbs))
    · exact ih _ _ _ _ hOut hNone

/-- A full row gives the caret behind its last character to the row after it, the last row keeps it. -/
theorem wrapLoop_caret {abs : Nat} (rest : List Char) {row : List Char} (rowStartChar : Nat)
    (hNe : row ++ rest ≠ []) (hRow : row.length ≤ cols) (hLow : rowStartChar ≤ abs)
    (hHigh : abs ≤ rowStartChar + (row ++ rest).length) :
    CaretAt promptChars (wrapLoop cols (some abs) rest row row.length rowStartChar none)
      (abs - rowStartChar) := by
  induction rest generalizing row rowStartChar with
  | nil =>
    rw [List.append_nil] at hNe hHigh
    rw [wrapLoop, if_neg hNe, Option.bind_some, if_pos ⟨hLow, hHigh⟩]
    exact CaretAt.head (by simp [VRow.lead]) fun _ h => absurd h List.not_mem_nil
  | cons c rest ih =>
    rw [wrapLoop, Option.bind_some]
    split
    · by_cases hHere : abs < rowStartChar + row.length
      · rw [if_pos ⟨hLow, hHere⟩]
        refine CaretAt.head (by simp [VRow.lead]) (wrapLoop_noCaret _ _ _ _ _ _ fun at' hAt => ?_)
        obtain rfl := Option.some.inj hAt
        exact hHere
      · rw [if_neg fun h => hHere h.2]
        have hLength : (row ++ c :: rest).length = row.length + ([c] ++ rest).length := by
          rw [List.length_append]
          rfl
        have hNext := @ih [c] (rowStartChar + row.length) (List.cons_ne_nil c rest) hCols
          (by omega) (by omega)
        have hPos : row.length + (abs - (rowStartChar + row.length)) = abs - rowStartChar := by
          omega
        exact CaretAt.cons rfl (wrapLoop_plain _ _ _ _ _) hNext hPos
    · have hRoom : (row ++ [c]).length ≤ cols := by
        rw [List.length_append, List.length_singleton]
        omega
      have hSame : row ++ c :: rest = row ++ [c] ++ rest := by
        rw [List.append_assoc, List.singleton_append]
      have hNext := ih rowStartChar (by simp) hRoom hLow (hSame ▸ hHigh)
      rw [List.length_append, List.length_singleton] at hNext
      exact hNext

theorem wrapIntoRows_text (line : List Char) (head : Option String) :
    (wrapIntoRows line cols head caretAt).map VRow.text = rowsOfLine cols line := by
  rw [wrapIntoRows]
  split
  · rename_i hNil
    rw [hNil, rowsOfLine_short (Nat.zero_le cols)]
    rfl
  · rename_i hNe
    exact wrapLoop_text hCols caretAt line 0 head (by simpa using hNe) (Nat.zero_le cols)

omit hCols in
theorem wrapIntoRows_plain (line : List Char) :
    ∀ r ∈ wrapIntoRows line cols none caretAt, r.promptHead.isSome = false := by
  rw [wrapIntoRows]
  split
  · intro r hr
    rw [List.mem_singleton.mp hr]
    rfl
  · exact wrapLoop_plain caretAt line [] 0 0

omit hCols in
theorem wrapIntoRows_noCaret (line : List Char) : NoCaret (wrapIntoRows line cols none none) := by
  rw [wrapIntoRows]
  split
  · intro r hr
    rw [List.mem_singleton.mp hr]
    rfl
  · exact wrapLoop_noCaret _ _ _ _ _ _ fun _ h => by cases h

theorem wrapIntoRows_caret {line : List Char} {abs : Nat} (hNe : line ≠ [])
    (hAbs : abs ≤ line.length) :
    CaretAt promptChars (wrapIntoRows line cols none (some abs)) abs := by
  rw [wrapIntoRows, if_neg hNe]
  have hRows : CaretAt promptChars (wrapLoop cols (some abs) line [] 0 0 none) (abs - 0) :=
    wrapLoop_caret hCols line 0 (by simpa using hNe) (Nat.zero_le cols) (Nat.zero_le abs)
      (by simpa using hAbs)
  rwa [Nat.sub_zero] at hRows

end Line

theorem rowsOfLine_flatten (cols : Nat) (line : List Char) :
    (rowsOfLine cols line).flatten = line := by
  fun_induction rowsOfLine cols line with
  | case1 line _ => rw [List.flatten_singleton]
  | case2 line _ ih => rw [List.flatten_cons, ih, List.take_append_drop]

theorem wrapIntoRows_flatten (hCols : 0 < cols) (caretAt : Option Nat) (line : List Char)
    (head : Option String) :
    ((wrapIntoRows line cols head caretAt).map VRow.text).flatten = line := by
  rw [wrapIntoRows_text hCols, rowsOfLine_flatten]

theorem wrapIntoRows_fits (hCols : 0 < cols) (caretAt : Option Nat) (line : List Char) :
    ∀ r ∈ wrapIntoRows line cols none caretAt, Fits promptChars cols r := by
  intro r hr
  have hText : r.text ∈ rowsOfLine cols line := by
    rw [← wrapIntoRows_text hCols caretAt line none]
    exact List.mem_map_of_mem hr
  have hWidth := rowsOfLine_length hCols line _ hText
  refine ⟨hWidth, fun _ => ?_⟩
  rw [VRow.lead, wrapIntoRows_plain caretAt line r hr]
  simpa using hWidth

/-- What the rows of one line are to be. -/
structure LineRows (promptChars cols : Nat) (line : List Char) (rows : List VRow) : Prop where
  opens : OpensLine rows
  text : (rows.map VRow.text).flatten = line
  fits : ∀ r ∈ rows, Fits promptChars cols r

theorem LineRows.length {line : List Char} {rows : List VRow}
    (h : LineRows promptChars cols line rows) : (rows.map (·.text.length)).sum = line.length := by
  rw [← h.text, List.length_flatten, List.map_map]
  rfl

section Row
variable (hCols : 0 < cols) (line : List Char) (promptStr : String)
include hCols

theorem wrapPromptRow_rows (caretAbs : Option Nat) :
    LineRows promptChars cols line (wrapPromptRow line promptStr promptChars caretAbs cols) := by
  have hEmpty : ∀ caret, Fits promptChars cols ⟨[], some promptStr, caret⟩ :=
    fun _ => ⟨Nat.zero_le cols, fun h => absurd rfl h⟩
  unfold wrapPromptRow
  split
  -- the prompt alone in its row
  · refine ⟨⟨_, _, rfl, rfl, wrapIntoRows_plain _ line⟩, ?_, ?_⟩
    · rw [List.map_cons, List.flatten_cons, List.nil_append, wrapIntoRows_flatten hCols]
    · exact List.forall_mem_cons.mpr ⟨hEmpty _, wrapIntoRows_fits hCols _ line⟩
  rename_i hWide
  have hNoMore : ∀ r ∈ ([] : List VRow), r.promptHead.isSome = false :=
    fun _ h => absurd h List.not_mem_nil
  split
  · rename_i hNil
    refine ⟨⟨_, [], rfl, rfl, hNoMore⟩, by simp [hNil], ?_⟩
    exact List.forall_mem_cons.mpr ⟨hEmpty _, fun _ h => absurd h List.not_mem_nil⟩
  have hHead : ∀ caret, Fits promptChars cols
      ⟨line.take (min (cols - promptChars) line.length), some promptStr, caret⟩ := by
    intro caret
    simp only [Fits, VRow.lead, List.length_take, Option.isSome_some, if_true]
    omega
  dsimp only
  split
  · rename_i hAll
    refine ⟨⟨_, [], rfl, rfl, hNoMore⟩, by simp [hAll], ?_⟩
    exact List.forall_mem_cons.mpr ⟨hHead _, fun _ h => absurd h List.not_mem_nil⟩
  · refine ⟨⟨_, _, rfl, rfl, wrapIntoRows_plain _ _⟩, ?_, ?_⟩
    · rw [List.map_cons, List.flatten_cons, wrapIntoRows_flatten hCols, List.take_append_drop]
    · exact List.forall_mem_cons.mpr ⟨hHead _, wrapIntoRows_fits hCols _ _⟩

omit hCols in
theorem wrapPromptRow_noCaret : NoCaret (wrapPromptRow line promptStr promptChars none cols) := by
  have hNil : NoCaret [] := fun _ h => absurd h List.not_mem_nil
  unfold wrapPromptRow
  split
  · exact NoCaret.cons rfl (wrapIntoRows_noCaret line)
  split
  · exact NoCaret.cons rfl hNil
  dsimp only
  split
  · exact NoCaret.cons rfl hNil
  · exact NoCaret.cons rfl (wrapIntoRows_noCaret _)

/-- The prompt's row keeps the caret up to its end; what is left of the line has it else. -/
theorem wrapPromptRow_caret {pos : Nat} (hPos : pos ≤ line.length) :
    CaretAt promptChars
      (wrapPromptRow line promptStr promptChars (some (promptChars + pos)) cols) pos := by
  have hNil : NoCaret [] := fun _ h => absurd h List.not_mem_nil
  unfold wrapPromptRow
  split
  · by_cases hZero : pos = 0
    · subst hZero
      have hRest : caretAtForRemainder (promptChars + 0) promptChars = none :=
        if_neg (Nat.lt_irrefl promptChars)
      rw [Option.bind_some, hRest]
      exact CaretAt.prompt (Option.filter_some_pos (by simp)) (wrapIntoRows_noCaret line)
    · have hRest : caretAtForRemainder (promptChars + pos) promptChars = some pos := by
        rw [caretAtForRemainder, if_pos (by omega), Nat.add_sub_cancel_left]
      have hBehind : ¬ promptChars + pos ≤ promptChars := by omega
      have hHead : (some (promptChars + pos)).filter (· ≤ promptChars) = none :=
        Option.filter_some_neg (decide_eq_false hBehind)
      have hNe : line ≠ [] := List.ne_nil_of_length_pos (by omega)
      rw [Option.bind_some, hRest, hHead]
      exact CaretAt.cons rfl (wrapIntoRows_plain _ line) (wrapIntoRows_caret hCols hNe hPos)
        (Nat.zero_add pos)
  rename_i hWide
  split
  · rename_i hEmpty
    have hZero : pos = 0 := by simpa [hEmpty] using hPos
    have hColumn : min (promptChars + pos) cols = promptChars + pos := by omega
    exact CaretAt.prompt (congrArg some hColumn) hNil
  dsimp only
  split
  · rename_i hAll
    exact CaretAt.prompt (Option.filter_some_pos (by simpa [hAll] using hPos)) hNil
  · have hRowLength : (line.take (min (cols - promptChars) line.length)).length =
        min (cols - promptChars) line.length := by
      rw [List.length_take]
      omega
    generalize min (cols - promptChars) line.length = headEnd at *
    by_cases hHere : pos ≤ headEnd
    · have hRest : (some (promptChars + pos)).filter (promptChars + headEnd < ·) = none :=
        Option.filter_some_neg (by simpa using hHere)
      rw [hRest]
      exact CaretAt.prompt (Option.filter_some_pos (by simpa using hHere)) (wrapIntoRows_noCaret _)
    · have hHead : (some (promptChars + pos)).filter (· ≤ promptChars + headEnd) = none :=
        Option.filter_some_neg (by simpa using hHere)
      have hRest : (some (promptChars + pos)).filter (promptChars + headEnd < ·) =
          some (promptChars + pos) := Option.filter_some_pos (by simpa using hHere)
      have hLeft : (line.drop headEnd).length = line.length - headEnd := List.length_drop
      have hNe : line.drop headEnd ≠ [] := List.ne_nil_of_length_pos (by omega)
      have hPast : promptChars + pos - promptChars - headEnd = pos - headEnd := by omega
      rw [hHead, hRest, Option.map_some, hPast]
      exact CaretAt.cons rfl (wrapIntoRows_plain _ _) (wrapIntoRows_caret hCols hNe (by omega))
        (by simp only [hRowLength]; omega)

end Row

/-! The whole input. -/

theorem lines_line {line : List Char} (hLine : '\n' ∉ line) (rest : List Char) :
    lines '\n' (line ++ '\n' :: rest) = line :: lines '\n' rest := by
  induction line with
  | nil => rw [List.nil_append, lines, if_pos rfl]
  | cons c line ih =>
    rw [List.mem_cons, not_or] at hLine
    rw [List.cons_append, lines, if_neg (Ne.symm hLine.1), ih hLine.2]
    rfl

theorem lines_last {line : List Char} (hLine : '\n' ∉ line) : lines '\n' line = [line] := by
  induction line with
  | nil => rfl
  | cons c line ih =>
    rw [List.mem_cons, not_or] at hLine
    rw [lines, if_neg (Ne.symm hLine.1), ih hLine.2]
    rfl

def rowsText (rows : List VRow) : List Char := (rows.map VRow.text).flatten

/-- What the rows of a text are to be, with the caret at `pos` where there is one. -/
structure TextRows (promptChars cols : Nat) (text : List Char) (caret : Option Nat)
    (rows : List VRow) : Prop where
  /-- Each line has rows of its own. -/
  blocks : ∃ blocks : List (List VRow), rows = blocks.flatten ∧ (∀ block ∈ blocks, OpensLine block) ∧
    blocks.map rowsText = lines '\n' text
  fits : ∀ row ∈ rows, Fits promptChars cols row
  away : caret = none → NoCaret rows
  here : ∀ pos, caret = some pos → CaretAt promptChars rows pos

theorem TextRows.opens {text : List Char} {caret : Option Nat} {rows : List VRow}
    (h : TextRows promptChars cols text caret rows) :
    ∃ head rest, rows = head :: rest ∧ head.promptHead.isSome = true := by
  obtain ⟨blocks, rfl, hOpens, hText⟩ := h.blocks
  cases blocks with
  | nil => exact absurd hText.symm (lines_ne_nil _ _)
  | cons first more =>
    obtain ⟨head, rest, rfl, hHead, _⟩ := hOpens first List.mem_cons_self
    exact ⟨head, _, rfl, hHead⟩

theorem TextRows.last {line : List Char} {caret : Option Nat} {rows : List VRow}
    (hLine : '\n' ∉ line) (h : LineRows promptChars cols line rows)
    (hAway : caret = none → NoCaret rows)
    (hHere : ∀ pos, caret = some pos → CaretAt promptChars rows pos) :
    TextRows promptChars cols line caret rows := by
  refine ⟨⟨[rows], by simp, ?_, ?_⟩, h.fits, hAway, hHere⟩
  · exact List.forall_mem_singleton.mpr h.opens
  · rw [lines_last hLine, List.map_singleton, rowsText, h.text]

theorem TextRows.cons {line rest : List Char} {caret caret' : Option Nat} {first rows : List VRow}
    (hLine : '\n' ∉ line) (hFirst : LineRows promptChars cols line first)
    (h : TextRows promptChars cols rest caret' rows)
    (hAway : caret = none → NoCaret (first ++ rows))
    (hHere : ∀ pos, caret = some pos → CaretAt promptChars (first ++ rows) pos) :
    TextRows promptChars cols (line ++ '\n' :: rest) caret (first ++ rows) := by
  obtain ⟨blocks, rfl, hOpens, hText⟩ := h.blocks
  refine ⟨⟨first :: blocks, rfl, List.forall_mem_cons.mpr ⟨hFirst.opens, hOpens⟩, ?_⟩, ?_, hAway,
    hHere⟩
  · rw [lines_line hLine, List.map_cons, hText, rowsText, hFirst.text]
  · exact fun row hRow => (List.mem_append.mp hRow).elim (hFirst.fits row) (h.fits row)

section Block
variable {chars : List Char} {cursorIdx logicalIdx lineStart : Nat} {line rest : List Char}

theorem slice_eq (hDrop : chars.drop lineStart = line ++ rest) :
    (chars.drop lineStart).take (lineStart + line.length - lineStart) = line := by
  rw [hDrop, Nat.add_sub_cancel_left, List.take_left']
  rfl

theorem lineRows_rows (hCols : 0 < cols) (hDrop : chars.drop lineStart = line ++ rest) :
    LineRows promptChars cols line (promptLoop.lineRows chars cursorIdx promptChars cols logicalIdx
      lineStart (lineStart + line.length)) := by
  rw [promptLoop.lineRows, slice_eq hDrop]
  exact wrapPromptRow_rows hCols line _ _

theorem lineRows_noCaret
    (hOut : ¬ (lineStart ≤ cursorIdx ∧ cursorIdx ≤ lineStart + line.length)) :
    NoCaret (promptLoop.lineRows chars cursorIdx promptChars cols logicalIdx lineStart
      (lineStart + line.length)) := by
  rw [promptLoop.lineRows, if_neg hOut]
  exact wrapPromptRow_noCaret _ _

theorem lineRows_caret (hCols : 0 < cols) (hDrop : chars.drop lineStart = line ++ rest)
    (hLow : lineStart ≤ cursorIdx) (hHigh : cursorIdx ≤ lineStart + line.length) :
    CaretAt promptChars (promptLoop.lineRows chars cursorIdx promptChars cols logicalIdx lineStart
      (lineStart + line.length)) (cursorIdx - lineStart) := by
  have hIn : lineStart ≤ cursorIdx ∧ cursorIdx ≤ lineStart + line.length := ⟨hLow, hHigh⟩
  rw [promptLoop.lineRows, slice_eq hDrop, if_pos hIn]
  exact wrapPromptRow_caret hCols line _ (by omega)

/-- The caret is in these rows unless it stands before their first line. -/
def caretFrom (cursorIdx lineStart : Nat) : Option Nat :=
  if lineStart ≤ cursorIdx then some (cursorIdx - lineStart) else none

theorem caretFrom_eq_none (h : caretFrom cursorIdx lineStart = none) : cursorIdx < lineStart := by
  rw [caretFrom] at h
  split at h
  · cases h
  · omega

theorem caretFrom_eq_some {pos : Nat} (h : caretFrom cursorIdx lineStart = some pos) :
    lineStart ≤ cursorIdx ∧ pos = cursorIdx - lineStart := by
  rw [caretFrom] at h
  split at h
  · exact ⟨by assumption, (Option.some.inj h).symm⟩
  · cases h

/-- From the start of a line on there stand the line so far and what is left to read. -/
theorem promptLoop_rows (hCols : 0 < cols) (hCursor : cursorIdx ≤ chars.length) (rest : List Char)
    (logicalIdx : Nat) {lineStart : Nat} {line : List Char}
    (hDrop : chars.drop lineStart = line ++ rest) (hStart : lineStart ≤ chars.length)
    (hLine : '\n' ∉ line) :
    TextRows promptChars cols (line ++ rest) (caretFrom cursorIdx lineStart)
      (promptLoop chars cursorIdx promptChars cols rest logicalIdx lineStart
        (lineStart + line.length)) := by
  have hLength : lineStart + (line.length + rest.length) = chars.length := by
    have hSame := congrArg List.length hDrop
    rw [List.length_drop, List.length_append] at hSame
    omega
  induction rest generalizing logicalIdx lineStart line with
  | nil =>
    rw [List.length_nil] at hLength
    rw [List.append_nil, promptLoop]
    refine TextRows.last hLine (lineRows_rows hCols hDrop) (fun hNone => ?_) fun pos hPos => ?_
    · have hBefore := caretFrom_eq_none hNone
      exact lineRows_noCaret (by omega)
    · obtain ⟨hLow, hEq⟩ := caretFrom_eq_some hPos
      rw [hEq]
      exact lineRows_caret hCols hDrop hLow (by omega)
  | cons c rest ih =>
    rw [List.length_cons] at hLength
    rw [promptLoop]
    by_cases hEnd : c = '\n'
    · rw [if_pos hEnd]
      rw [hEnd] at hDrop ⊢
      have hNextDrop : chars.drop (lineStart + line.length + 1) = [] ++ rest := by
        rw [Nat.add_assoc, ← List.drop_drop, hDrop, List.drop_append, List.drop_of_length_le (by omega)]
        simp
      have hNext := ih (logicalIdx + 1) hNextDrop (by omega) List.not_mem_nil
        (by rw [List.length_nil]; omega)
      rw [List.length_nil, Nat.add_zero, List.nil_append] at hNext
      refine TextRows.cons hLine (lineRows_rows hCols hDrop) hNext (fun hNone => ?_) fun pos hPos => ?_
      · have hBefore := caretFrom_eq_none hNone
        exact (lineRows_noCaret (by omega)).append (hNext.away (if_neg (by omega)))
      · obtain ⟨hLow, hEq⟩ := caretFrom_eq_some hPos
        by_cases hHere : cursorIdx ≤ lineStart + line.length
        · rw [hEq]
          exact (lineRows_caret hCols hDrop hLow hHere).append (hNext.away (if_neg (by omega)))
        · have hCaret := CaretAt.behind (lineRows_rows hCols hDrop).opens
            (@lineRows_noCaret promptChars cols chars cursorIdx logicalIdx _ _ (by omega)) hNext.opens
            (hNext.here _ (if_pos (by omega)))
          rw [(lineRows_rows hCols hDrop).length] at hCaret
          have hPosEq : line.length + 1 + (cursorIdx - (lineStart + line.length + 1)) = pos := by
            omega
          rwa [hPosEq] at hCaret
    · rw [if_neg hEnd]
      have hSame : line ++ c :: rest = line ++ [c] ++ rest := by
        rw [List.append_assoc, List.singleton_append]
      have hGrown : '\n' ∉ line ++ [c] := by
        rw [List.mem_append, List.mem_singleton, not_or]
        exact ⟨hLine, Ne.symm hEnd⟩
      have hNext := ih logicalIdx (hDrop.trans hSame) hStart hGrown
        (by rw [List.length_append, List.length_singleton]; omega)
      rw [List.length_append, List.length_singleton] at hNext
      rw [hSame]
      exact hNext

end Block

end FactorForth.Gui
