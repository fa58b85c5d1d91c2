import FactorForth.Library.Wrapping
import FactorForth.Gui.TextView

/-! The text grid: no command and no resize reads or writes a cell outside it, and the text fed to a
cleared grid stands in its last rows. -/

namespace FactorForth.Gui
open FactorForth.Library

theorem writeCell_some {cells : List Cell} {i : Nat} (hi : i < cells.length) (x : Cell) :
    writeCell cells i x = some (cells.set i x) := if_pos hi

def Sized (n : Nat) (cells : List Cell) : Prop := cells.length = n

/-- A write inside the cells leaves their number. -/
theorem writeCell_keeps {n i : Nat} (hi : i < n) (x : Cell) {cells : List Cell}
    (hsize : Sized n cells) : ∃ next, writeCell cells i x = some next ∧ Sized n next :=
  ⟨_, writeCell_some (hsize.symm ▸ hi) x, List.length_set.trans hsize⟩

namespace GridState

/-- What holds of a grid between two events. -/
structure Valid (grid : GridState) : Prop where
  size : grid.cells.length = grid.rows * grid.cols
  row : grid.cursorRow < grid.rows
  col : grid.cursorCol ≤ grid.cols
  wide : 0 < grid.cols

variable {grid : GridState}

theorem place_lt {r c rows cols : Nat} (hr : r < rows) (hc : c < cols) :
    r * cols + c < rows * cols := by
  calc r * cols + c < r * cols + cols := by omega
    _ = (r + 1) * cols := (Nat.succ_mul r cols).symm
    _ ≤ rows * cols := Nat.mul_le_mul_right cols hr

theorem new_valid (rows cols : Nat) : (new rows cols).Valid where
  size := List.length_replicate
  row := by simp only [new]; omega
  col := Nat.zero_le _
  wide := by simp only [new]; omega

theorem copyCell_keeps (h : grid.Valid) {newRows newCols r c : Nat} (hr : r < min grid.rows newRows)
    (hc : c < min grid.cols newCols) {next : List Cell} (hnext : Sized (newRows * newCols) next) :
    ∃ next', grid.copyCell newCols r next c = some next' ∧ Sized (newRows * newCols) next' := by
  have hsource : grid.idx r c < grid.cells.length := by
    rw [h.size]
    exact place_lt (by omega) (by omega)
  have htarget : r * newCols + c < newRows * newCols := place_lt (by omega) (by omega)
  rw [copyCell, List.getElem?_eq_getElem hsource]
  exact writeCell_keeps htarget _ hnext

theorem Valid.resize (h : grid.Valid) (rows cols : Nat) :
    ∃ next, grid.resize rows cols = some next ∧ next.Valid := by
  unfold GridState.resize
  simp only
  split
  · exact ⟨grid, rfl, h⟩
  · have hstart : Sized (max rows 1 * max cols 1)
        (List.replicate (max rows 1 * max cols 1) blankCell) := List.length_replicate
    obtain ⟨next, hcopied, hsize⟩ := @foldlM_keeps _ _
      (fun next r => (List.range (min grid.cols (max cols 1))).foldlM
        (grid.copyCell (max cols 1) r) next) (Sized (max rows 1 * max cols 1))
      (List.range (min grid.rows (max rows 1))) (fun next r hr hnext =>
        foldlM_keeps (fun next c hc hnext => copyCell_keeps h (List.mem_range.mp hr)
          (List.mem_range.mp hc) hnext) hnext) _ hstart
    rw [hcopied]
    refine ⟨_, rfl, hsize, ?_, ?_, Nat.lt_of_lt_of_le Nat.zero_lt_one (Nat.le_max_right _ _)⟩
    · simp only
      split <;> omega
    · simp only
      split <;> omega

theorem Valid.clearAll (h : grid.Valid) : grid.clearAll.Valid where
  size := by
    simp only [GridState.clearAll, List.length_map]
    exact h.size
  row := Nat.zero_lt_of_lt h.row
  col := Nat.zero_le _
  wide := h.wide

theorem blankRow_keeps {row : Nat} (hrow : row < grid.rows) (col : Nat) {cells : List Cell}
    (hsize : Sized (grid.rows * grid.cols) cells) :
    ∃ next, grid.blankRow row col cells = some next ∧ Sized (grid.rows * grid.cols) next := by
  refine foldlM_keeps (fun cells c hc hcells => ?_) hsize
  obtain ⟨hlow, hlt⟩ := List.mem_range'_1.mp hc
  exact writeCell_keeps (place_lt hrow (by omega)) _ hcells

theorem Valid.withCells (h : grid.Valid) {cells : List Cell}
    (hsize : Sized (grid.rows * grid.cols) cells) : Valid { grid with cells := cells } :=
  ⟨hsize, h.row, h.col, h.wide⟩

theorem Valid.clearToEol (h : grid.Valid) :
    ∃ next, grid.clearToEol = some next ∧ next.Valid := by
  obtain ⟨cells, hrow, hsize⟩ := blankRow_keeps h.row grid.cursorCol h.size
  exact ⟨_, by rw [GridState.clearToEol, hrow]; rfl, h.withCells hsize⟩

theorem Valid.clearToEos (h : grid.Valid) :
    ∃ next, grid.clearToEos = some next ∧ next.Valid := by
  obtain ⟨cells, hrow, hsize⟩ := blankRow_keeps h.row grid.cursorCol h.size
  obtain ⟨cells', hrest, hsize'⟩ := @foldlM_keeps _ _ (fun cells r => grid.blankRow r 0 cells)
    (Sized (grid.rows * grid.cols))
    (List.range' (grid.cursorRow + 1) (grid.rows - (grid.cursorRow + 1)))
    (fun cells r hr hcells => by
      obtain ⟨hlow, hlt⟩ := List.mem_range'_1.mp hr
      exact blankRow_keeps (by omega) 0 hcells) _ hsize
  refine ⟨_, ?_, h.withCells hsize'⟩
  rw [GridState.clearToEos, hrow, Option.bind_eq_bind, Option.bind_some, hrest]
  rfl

/-- The cells after a scroll within the grid. -/
theorem copyDown_blank {shift : Nat} {cells : List Cell} :
    (copyDown shift cells).take (cells.length - shift) = cells.drop shift := by
  have hlength : (cells.drop shift).length = cells.length - shift := List.length_drop
  rw [copyDown, ← hlength, List.take_left]

theorem scrollUp_within (h : grid.Valid) {n : Nat} (hpos : 0 < n) (hn : n < grid.rows) :
    grid.scrollUp n = some { grid with
      cells := grid.cells.drop (n * grid.cols) ++ List.replicate (n * grid.cols) grid.penBlank
      cursorRow := if n ≤ grid.cursorRow then grid.cursorRow - n else 0 } := by
  have hshift : n * grid.cols ≤ grid.cells.length := by
    rw [h.size]
    exact Nat.mul_le_mul_right _ (Nat.le_of_lt hn)
  simp only [GridState.scrollUp, if_neg (Nat.ne_of_gt hpos), if_neg (Nat.not_le.mpr hn),
    if_neg (Nat.not_lt.mpr hshift), copyDown_blank]

theorem Valid.scrollUp (h : grid.Valid) (n : Nat) :
    ∃ next, grid.scrollUp n = some next ∧ next.Valid := by
  rcases Nat.eq_zero_or_pos n with rfl | hpos
  · exact ⟨grid, rfl, h⟩
  · rcases Nat.lt_or_ge n grid.rows with hlt | hge
    · have hshift : n * grid.cols ≤ grid.rows * grid.cols := Nat.mul_le_mul_right _ (Nat.le_of_lt hlt)
      refine ⟨_, scrollUp_within h hpos hlt, ?_, ?_, h.col, h.wide⟩
      · simp only [List.length_append, List.length_drop, List.length_replicate, h.size]
        omega
      · have hrow := h.row
        simp only
        split <;> omega
    · exact ⟨grid.clearAll, by rw [GridState.scrollUp, if_neg (Nat.ne_of_gt hpos), if_pos hge], h.clearAll⟩

theorem Valid.atColumn (h : grid.Valid) {col : Nat} (hcol : col ≤ grid.cols) :
    Valid { grid with cursorCol := col } := ⟨h.size, h.row, hcol, h.wide⟩

/-- The cells after a line feed: as they were, or one row up where the cursor is in the last row. -/
def newlineCells (grid : GridState) : List Cell :=
  if grid.cursorRow + 1 < grid.rows then grid.cells
  else grid.cells.drop grid.cols ++ List.replicate grid.cols grid.penBlank

/-- A line feed, also in a grid of one row, which it clears. -/
theorem newline_eq (h : grid.Valid) : grid.newline = some { grid with
    cells := grid.newlineCells
    cursorCol := 0
    cursorRow := min (grid.cursorRow + 1) (grid.rows - 1) } := by
  have hstart := h.atColumn (Nat.zero_le grid.cols)
  have hrow := h.row
  unfold GridState.newline newlineCells
  simp only
  split
  · rename_i hnext
    rw [Nat.min_eq_left (by omega)]
  · rename_i hlast
    rw [Nat.min_eq_right (by omega)]
    rcases Nat.lt_or_ge 1 grid.rows with hrows | hone
    · rw [scrollUp_within hstart Nat.zero_lt_one hrows]
      simp only [Option.bind_eq_bind, Option.bind_some, Nat.one_mul]
      rfl
    · have hrows : grid.rows = 1 := by omega
      have hsize : grid.cells.length = grid.cols := by rw [h.size, hrows, Nat.one_mul]
      have hdrop : grid.cells.drop grid.cols = [] := List.drop_of_length_le (Nat.le_of_eq hsize)
      have hblank : grid.cells.map (fun _ => grid.penBlank) =
          List.replicate grid.cols grid.penBlank := by rw [List.map_const', hsize]
      rw [hdrop, List.nil_append, ← hblank, GridState.scrollUp, if_neg Nat.one_ne_zero, if_pos hone]
      rfl

theorem length_newlineCells (h : grid.Valid) :
    grid.newlineCells.length = grid.rows * grid.cols := by
  unfold newlineCells
  split
  · exact h.size
  · have hcols : 1 * grid.cols ≤ grid.rows * grid.cols :=
      Nat.mul_le_mul_right _ (Nat.zero_lt_of_lt h.row)
    rw [List.length_append, List.length_drop, List.length_replicate, h.size]
    omega

theorem Valid.newline (h : grid.Valid) :
    ∃ next, grid.newline = some next ∧ next.Valid ∧ next.cursorCol = 0 := by
  have hrow := h.row
  refine ⟨_, newline_eq h, ⟨length_newlineCells h, ?_, Nat.zero_le _, h.wide⟩, rfl⟩
  simp only
  omega

theorem putCell_eq (h : grid.Valid) (hcol : grid.cursorCol < grid.cols) (cp : Nat) :
    grid.putCell cp = some { grid with
      cells := grid.cells.set (grid.idx grid.cursorRow grid.cursorCol) ⟨cp, grid.penFg, grid.penBg⟩
      cursorCol := grid.cursorCol + 1 } := by
  have hplace : grid.idx grid.cursorRow grid.cursorCol < grid.cells.length := by
    rw [h.size]
    exact place_lt h.row hcol
  rw [GridState.putCell, writeCell_some hplace]
  rfl

theorem Valid.putCell (h : grid.Valid) (hcol : grid.cursorCol < grid.cols) (cp : Nat) :
    ∃ next, grid.putCell cp = some next ∧ next.Valid :=
  ⟨_, putCell_eq h hcol cp, List.length_set.trans h.size, h.row, hcol, h.wide⟩

theorem Valid.eraseLeft (h : grid.Valid) : ∃ next, grid.eraseLeft = some next ∧ next.Valid := by
  unfold GridState.eraseLeft
  split
  · exact ⟨grid, rfl, h⟩
  · rename_i hcol
    have hleft : grid.cursorCol - 1 < grid.cols := by
      have hle := h.col
      omega
    obtain ⟨cells, hwrite, hsize⟩ := writeCell_keeps (place_lt h.row hleft) grid.penBlank h.size
    simp only [idx, penBlank] at hwrite ⊢
    rw [hwrite]
    exact ⟨_, rfl, hsize, h.row, Nat.le_of_lt hleft, h.wide⟩

theorem Valid.putCodepoint (h : grid.Valid) (cp : Nat) :
    ∃ next, grid.putCodepoint cp = some next ∧ next.Valid := by
  unfold GridState.putCodepoint
  split_ifs with hnl hcr htab hbs hcontrol hfull
  · obtain ⟨next, hnewline, hvalid, -⟩ := h.newline
    exact ⟨next, hnewline, hvalid⟩
  · exact ⟨_, rfl, h.atColumn (Nat.zero_le _)⟩
  · exact ⟨_, rfl, h.atColumn (by omega)⟩
  · exact h.eraseLeft
  · exact ⟨grid, rfl, h⟩
  · obtain ⟨next, hnewline, hvalid, hcol⟩ := h.newline
    rw [hnewline]
    exact hvalid.putCell (hcol ▸ hvalid.wide) cp
  · exact h.putCell (by omega) cp

theorem Valid.applyCmd (h : grid.Valid) (c : TextCmd) :
    ∃ next, grid.applyCmd c = some next ∧ next.Valid := by
  have hrow := h.row
  cases c with
  | writeStr s => exact foldlM_keeps (fun _ cp _ hvalid => hvalid.putCodepoint cp) h
  | writeChar cp => exact h.putCodepoint cp
  | setCursor row col =>
    refine ⟨_, rfl, h.size, ?_, ?_, h.wide⟩
    · simp only
      omega
    · simp only
      omega
  | clearAll => exact ⟨_, rfl, h.clearAll⟩
  | clearEol => exact h.clearToEol
  | clearEos => exact h.clearToEos
  | newline =>
    obtain ⟨next, hnewline, hvalid, -⟩ := h.newline
    exact ⟨next, hnewline, hvalid⟩
  | scrollUp n => exact h.scrollUp n
  | setPen fg bg => exact ⟨_, rfl, h.size, h.row, h.col, h.wide⟩
  | resetPen => exact ⟨_, rfl, h.size, h.row, h.col, h.wide⟩
  | setCaretVisible v => exact ⟨_, rfl, h.size, h.row, h.col, h.wide⟩

theorem Valid.step (h : grid.Valid) (e : Event) : ∃ next, grid.step e = some next ∧ next.Valid := by
  cases e with
  | cmd c => exact h.applyCmd c
  | resize rows cols => exact h.resize rows cols

/-- Commands and resizes in any order run, and leave a valid grid. -/
theorem events_valid (rows cols : Nat) (events : List Event) :
    ∃ grid, events.foldlM GridState.step (new rows cols) = some grid ∧ grid.Valid :=
  foldlM_keeps (fun _ e _ hvalid => hvalid.step e) (new_valid rows cols)

/-! What the cells show. -/

/-- Row `r` of a window of `rows` rows onto the end of the text; rows below the text are empty. -/
def windowRow (rows : Nat) (text : List (List Nat)) (r : Nat) : List Nat :=
  (text.drop (text.length - rows)).getD r []

/-- What stands in column `c` of a row. -/
def shownCell (grid : GridState) (row : List Nat) (c : Nat) : Cell :=
  match row[c]? with
  | some cp => ⟨cp, grid.penFg, grid.penBg⟩
  | none => grid.penBlank

/-- The grid shows the last of the rows, with the cursor behind them. -/
structure Shows (grid : GridState) (text : List (List Nat)) : Prop where
  cell : ∀ r < grid.rows, ∀ c < grid.cols,
    grid.cells[grid.idx r c]? = some (grid.shownCell (windowRow grid.rows text r) c)
  row : grid.cursorRow + 1 = min text.length grid.rows
  col : grid.cursorCol = (text.getLastD []).length

theorem windowRow_eq (rows : Nat) (text : List (List Nat)) (r : Nat) :
    windowRow rows text r = text.getD (text.length - rows + r) [] := by
  rw [windowRow, List.getD_eq_getElem?_getD, List.getD_eq_getElem?_getD, List.getElem?_drop]

/-- An empty row behind the text is as if nothing stood there. -/
theorem getD_concat_nil (text : List (List Nat)) (i : Nat) :
    (text ++ [[]]).getD i [] = text.getD i [] := by
  rw [List.getD_eq_getElem?_getD, List.getD_eq_getElem?_getD]
  rcases Nat.lt_trichotomy i text.length with hlt | rfl | hgt
  · rw [List.getElem?_append_left hlt]
  · simp
  · rw [List.getElem?_eq_none (by rw [List.length_append]; exact hgt),
      List.getElem?_eq_none (Nat.le_of_lt hgt)]

theorem place_inj {r c r' c' cols : Nat} (hc : c < cols) (hc' : c' < cols)
    (hplace : r * cols + c = r' * cols + c') : r = r' ∧ c = c' := by
  have hcols : 0 < cols := Nat.zero_lt_of_lt hc
  have hrow (r c : Nat) (hlt : c < cols) : (r * cols + c) / cols = r := by
    rw [Nat.add_comm, Nat.add_mul_div_right _ _ hcols, Nat.div_eq_of_lt hlt, Nat.zero_add]
  obtain rfl : r = r' := by
    rw [← hrow r c hc, hplace, hrow r' c' hc']
  exact ⟨rfl, Nat.add_left_cancel hplace⟩

theorem clearAll_shows (h : grid.Valid) : grid.clearAll.Shows [[]] where
  cell r hr c hc := by
    have hplace : r * grid.cols + c < grid.cells.length := h.size ▸ place_lt hr hc
    have hrow : windowRow grid.rows [[]] r = [] := by
      rw [windowRow_eq]
      exact getD_concat_nil [] _
    have hcell : (grid.cells.map fun _ => grid.penBlank)[r * grid.cols + c]? =
        some (grid.shownCell (windowRow grid.rows [[]] r) c) := by
      rw [hrow, List.getElem?_map, List.getElem?_eq_getElem hplace]
      rfl
    exact hcell
  row := by
    have hrow := h.row
    simp only [GridState.clearAll, List.length_singleton]
    omega
  col := rfl

theorem newlineCells_shows (h : grid.Valid) {text : List (List Nat)} (hshows : grid.Shows text)
    {r c : Nat} (hr : r < grid.rows) (hc : c < grid.cols) :
    grid.newlineCells[r * grid.cols + c]? =
      some (grid.shownCell (windowRow grid.rows (text ++ [[]]) r) c) := by
  have hcursor := hshows.row
  rw [windowRow_eq, getD_concat_nil, List.length_append, List.length_singleton]
  unfold newlineCells
  split
  · have hoffset : text.length + 1 - grid.rows = text.length - grid.rows := by omega
    rw [hoffset, ← windowRow_eq]
    exact hshows.cell r hr c hc
  · have hoffset : text.length + 1 - grid.rows + r = text.length - grid.rows + (r + 1) := by omega
    rw [hoffset, ← windowRow_eq]
    rcases Nat.lt_or_ge (r + 1) grid.rows with hinside | hlast
    · have hplace : grid.cols + (r * grid.cols + c) = (r + 1) * grid.cols + c := by
        rw [Nat.succ_mul]
        omega
      have hlength : (r + 1) * grid.cols + c < grid.cells.length :=
        h.size ▸ place_lt hinside hc
      rw [List.getElem?_append_left (by rw [List.length_drop]; omega), List.getElem?_drop, hplace]
      exact hshows.cell (r + 1) hinside c hc
    · have hrow : windowRow grid.rows text (r + 1) = [] := by
        rw [windowRow_eq, List.getD_eq_getElem?_getD, List.getElem?_eq_none (by omega)]
        rfl
      have hlength : grid.cells.length = r * grid.cols + grid.cols := by
        rw [h.size, ← Nat.succ_mul]
        congr 1
        omega
      rw [hrow, List.getElem?_append_right (by rw [List.length_drop]; omega),
        List.getElem?_replicate, if_pos (by rw [List.length_drop]; omega)]
      rfl

theorem newline_shows (h : grid.Valid) {text : List (List Nat)} (hshows : grid.Shows text) :
    ∃ next, grid.newline = some next ∧ next.rows = grid.rows ∧ next.cols = grid.cols ∧
      next.Shows (text ++ [[]]) := by
  have hcursor := hshows.row
  refine ⟨_, newline_eq h, rfl, rfl, fun r hr c hc => newlineCells_shows h hshows hr hc, ?_, ?_⟩
  · simp only [List.length_append, List.length_singleton]
    omega
  · simp

/-- Two rows that differ in the last place show the same in every other one. -/
theorem getElem?_concat_ne {α : Type} (xs : List α) (x y : α) {i : Nat} (hi : i ≠ xs.length) :
    (xs ++ [x])[i]? = (xs ++ [y])[i]? := by
  rcases Nat.lt_or_gt_of_ne hi with hlt | hgt
  · rw [List.getElem?_append_left hlt, List.getElem?_append_left hlt]
  · rw [List.getElem?_append_right (Nat.le_of_lt hgt), List.getElem?_append_right (Nat.le_of_lt hgt),
      List.getElem?_singleton, List.getElem?_singleton, if_neg (by omega), if_neg (by omega)]

theorem shownCell_concat (row : List Nat) (cp : Nat) {c : Nat} (hc : c ≠ row.length) :
    grid.shownCell (row ++ [cp]) c = grid.shownCell row c := by
  have hcell : (row ++ [cp])[c]? = row[c]? := by
    rcases Nat.lt_or_gt_of_ne hc with hlt | hgt
    · rw [List.getElem?_append_left hlt]
    · rw [List.getElem?_append_right (Nat.le_of_lt hgt), List.getElem?_singleton,
        if_neg (by omega), List.getElem?_eq_none (Nat.le_of_lt hgt)]
  rw [shownCell, shownCell, hcell]

theorem putCell_shows (h : grid.Valid) {init : List (List Nat)} {last : List Nat}
    (hshows : grid.Shows (init ++ [last])) (hroom : last.length < grid.cols) (cp : Nat) :
    ∃ next, grid.putCell cp = some next ∧ next.rows = grid.rows ∧ next.cols = grid.cols ∧
      next.Shows (init ++ [last ++ [cp]]) := by
  have hcursor := hshows.row
  rw [List.length_append, List.length_singleton] at hcursor
  have hcol : grid.cursorCol = last.length := by simpa using hshows.col
  have hcell (r : Nat) (hr : r < grid.rows) (c : Nat) (hc : c < grid.cols) :
      (grid.cells.set (grid.idx grid.cursorRow grid.cursorCol)
          ⟨cp, grid.penFg, grid.penBg⟩)[r * grid.cols + c]? =
        some (grid.shownCell (windowRow grid.rows (init ++ [last ++ [cp]]) r) c) := by
    have hold := hshows.cell r hr c hc
    rw [windowRow_eq, List.length_append, List.length_singleton] at hold ⊢
    rw [List.getD_eq_getElem?_getD] at hold ⊢
    by_cases hrow : r = grid.cursorRow
    · subst hrow
      have hplace : init.length + 1 - grid.rows + grid.cursorRow = init.length := by omega
      rw [hplace, List.getElem?_concat_length, Option.getD_some] at hold ⊢
      by_cases hcell : c = grid.cursorCol
      · subst hcell
        rw [idx, List.getElem?_set_self (h.size ▸ place_lt hr hc), shownCell, hcol,
          List.getElem?_concat_length]
      · have hne : grid.idx grid.cursorRow grid.cursorCol ≠ grid.cursorRow * grid.cols + c :=
          fun hsame => hcell (Nat.add_left_cancel hsame).symm
        rw [List.getElem?_set_ne hne, shownCell_concat last cp (hcol ▸ hcell)]
        exact hold
    · have hne : grid.idx grid.cursorRow grid.cursorCol ≠ r * grid.cols + c := fun hsame =>
        hrow (place_inj (hcol.symm ▸ hroom) hc hsame).1.symm
      have hother : init.length + 1 - grid.rows + r ≠ init.length := by omega
      rw [List.getElem?_set_ne hne, getElem?_concat_ne init _ last hother]
      exact hold
  refine ⟨_, putCell_eq h (hcol.symm ▸ hroom) cp, rfl, rfl, hcell, ?_, ?_⟩
  · simp only [List.length_append, List.length_singleton]
    omega
  · simp [hcol]

/-! Text fed to a cleared grid. -/

/-- A line feed or a printable character. -/
def IsText (cp : Nat) : Prop := cp = 0x0A ∨ 0x20 ≤ cp

theorem putCodepoint_newline (grid : GridState) : grid.putCodepoint 0x0A = grid.newline := if_pos rfl

theorem putCodepoint_printable (grid : GridState) {cp : Nat} (hcp : 0x20 ≤ cp) :
    grid.putCodepoint cp =
      if grid.cols ≤ grid.cursorCol then grid.newline >>= fun g => g.putCell cp
      else grid.putCell cp := by
  rw [putCodepoint, if_neg (by omega), if_neg (by omega), if_neg (by omega), if_neg (by omega),
    if_neg (by omega)]

/-- A printable character goes behind the last row, or begins the next one. -/
theorem printable_shows (h : grid.Valid) {text : List (List Nat)} (htext : text ≠ [])
    (hshows : grid.Shows text) {cp : Nat} (hcp : 0x20 ≤ cp) :
    ∃ next, grid.putCodepoint cp = some next ∧ next.rows = grid.rows ∧ next.cols = grid.cols ∧
      next.Shows (growRows grid.cols text cp) := by
  obtain ⟨init, last, rfl⟩ : ∃ init last, text = init ++ [last] :=
    ⟨_, _, (List.dropLast_concat_getLast htext).symm⟩
  have hcol : grid.cursorCol = last.length := by simpa using hshows.col
  rw [putCodepoint_printable grid hcp, growRows_append grid.cols init (List.cons_ne_nil last []),
    growRows_singleton]
  split
  · rename_i hfull
    obtain ⟨next, hnewline, hrows, hcols, hnext⟩ := newline_shows h hshows
    obtain ⟨next', hnewline', hvalid, -⟩ := h.newline
    obtain rfl := Option.some.inj (hnewline.symm.trans hnewline')
    have hroom : ([] : List Nat).length < next.cols := hvalid.wide
    obtain ⟨put, hput, hrows', hcols', hshows'⟩ := putCell_shows hvalid hnext hroom cp
    rw [if_neg (by omega), hnewline]
    refine ⟨put, hput, hrows'.trans hrows, hcols'.trans hcols, ?_⟩
    rw [List.append_assoc] at hshows'
    exact hshows'
  · rename_i hroom
    rw [if_pos (by omega)]
    exact putCell_shows h hshows (by omega) cp

theorem putCodepoint_shows (h : grid.Valid) {text : List Nat}
    (hshows : grid.Shows (rowsOf 0x0A grid.cols text)) {cp : Nat} (hcp : IsText cp) :
    ∃ next, grid.putCodepoint cp = some next ∧ next.rows = grid.rows ∧ next.cols = grid.cols ∧
      next.Shows (rowsOf 0x0A grid.cols (text ++ [cp])) := by
  by_cases hnl : cp = 0x0A
  · subst hnl
    rw [rowsOf_separator, putCodepoint_newline]
    exact newline_shows h hshows
  · rw [rowsOf_snoc 0x0A h.wide text hnl]
    exact printable_shows h (rowsOf_ne_nil 0x0A grid.cols text) hshows (hcp.resolve_left hnl)

theorem text_shows (h : grid.Valid) {before : List Nat}
    (hshows : grid.Shows (rowsOf 0x0A grid.cols before)) (text : List Nat)
    (htext : ∀ cp ∈ text, IsText cp) :
    ∃ next, text.foldlM putCodepoint grid = some next ∧ next.rows = grid.rows ∧
      next.cols = grid.cols ∧ next.Shows (rowsOf 0x0A grid.cols (before ++ text)) := by
  induction text generalizing grid before with
  | nil => exact ⟨grid, rfl, rfl, rfl, by rwa [List.append_nil]⟩
  | cons cp text ih =>
    obtain ⟨hcp, hrest⟩ := List.forall_mem_cons.mp htext
    obtain ⟨next, hput, hrows, hcols, hnext⟩ := putCodepoint_shows h hshows hcp
    obtain ⟨next', hput', hvalid⟩ := h.putCodepoint cp
    obtain rfl := Option.some.inj (hput.symm.trans hput')
    rw [← hcols] at hnext
    obtain ⟨last, hfold, hrows', hcols', hlast⟩ := ih hvalid hnext hrest
    refine ⟨last, ?_, hrows'.trans hrows, hcols'.trans hcols, ?_⟩
    · rw [List.foldlM_cons, hput]
      exact hfold
    · rw [hcols, List.append_assoc] at hlast
      exact hlast

/-- The text that a command writes, of those that only write. -/
def written : TextCmd → Option (List Nat)
  | .writeStr s => some s
  | .writeChar cp => some [cp]
  | .newline => some [0x0A]
  | _ => none

theorem applyCmd_written (grid : GridState) {c : TextCmd} {text : List Nat}
    (hwritten : written c = some text) : grid.applyCmd c = text.foldlM putCodepoint grid := by
  cases c with
  | writeStr s =>
    obtain rfl := Option.some.inj hwritten
    rfl
  | writeChar cp =>
    obtain rfl := Option.some.inj hwritten
    exact (bind_pure _).symm
  | newline =>
    obtain rfl := Option.some.inj hwritten
    exact (bind_pure _).symm
  | _ => cases hwritten

theorem foldlM_written {cmds : List TextCmd} {texts : List (List Nat)}
    (hwritten : cmds.mapM written = some texts) (grid : GridState) :
    cmds.foldlM applyCmd grid = texts.flatten.foldlM putCodepoint grid := by
  induction cmds generalizing texts grid with
  | nil =>
    obtain rfl := Option.some.inj hwritten
    rfl
  | cons c cmds ih =>
    rw [List.mapM_cons] at hwritten
    obtain ⟨text, htext, hwritten⟩ := Option.bind_eq_some_iff.mp hwritten
    obtain ⟨rest, hrest, hwritten⟩ := Option.bind_eq_some_iff.mp hwritten
    obtain rfl := Option.some.inj hwritten
    rw [List.foldlM_cons, List.flatten_cons, List.foldlM_append, applyCmd_written grid htext]
    exact congrArg (text.foldlM putCodepoint grid >>= ·) (funext fun g => ih hrest g)

/-- Commands and resizes in any order run and leave a valid grid, and a cleared grid shows the last rows
of the text that it is fed. -/
theorem text_grid :
    (∀ (rows cols : Nat) (events : List Event), ∃ grid : GridState,
      events.foldlM GridState.step (new rows cols) = some grid ∧ grid.Valid) ∧
    ∀ grid : GridState, grid.Valid → ∀ cmds texts, cmds.mapM written = some texts →
      (∀ cp ∈ texts.flatten, IsText cp) → ∃ next,
        (TextCmd.clearAll :: cmds).foldlM applyCmd grid = some next ∧ next.rows = grid.rows ∧
        next.cols = grid.cols ∧ next.Shows (rowsOf 0x0A grid.cols texts.flatten) := by
  refine ⟨events_valid, fun grid h cmds texts hwritten htext => ?_⟩
  have hstart : grid.clearAll.Shows (rowsOf 0x0A grid.clearAll.cols []) := by
    rw [rowsOf_nil]
    exact clearAll_shows h
  obtain ⟨next, hfold, hrows, hcols, hshows⟩ := text_shows h.clearAll hstart texts.flatten htext
  refine ⟨next, ?_, hrows, hcols, hshows⟩
  rw [List.foldlM_cons, ← hfold, ← foldlM_written hwritten]
  rfl

end GridState
end FactorForth.Gui
