import FactorForth.Editor.Edits
import FactorForth.Library.Lines

/-! The line queries of the rope, which descend by the cached counts, against the lines of its text. -/

namespace FactorForth.Editor

open Library

/-! The queries. -/

namespace Node

/-- How many newlines appear at offsets below `pos`. -/
def countNewlinesBefore : Node → Nat → Nat
  | leaf buf _, pos => if pos = 0 then 0 else countNewlines (buf.take (min pos buf.length))
  | branch left right leftLen _ _ _, pos =>
    if pos = 0 then 0
    else if pos ≤ leftLen then countNewlinesBefore left pos
    else left.newlines + countNewlinesBefore right (pos - leftLen)

/-- The walk over a leaf, from index `i` with `count` newlines passed. -/
def scanLeaf (n : Nat) : List UInt32 → Nat → Nat → Option Nat
  | [], _, _ => none
  | cp :: rest, i, count =>
    if cp = newline then
      if count = n then some i else scanLeaf n rest (i + 1) (count + 1)
    else scanLeaf n rest (i + 1) count

/-- The offset of the `n`th newline. -/
def nthNewlinePosRaw : Node → Nat → Option Nat
  | leaf buf _, n => scanLeaf n buf 0 0
  | branch left right leftLen _ _ _, n =>
    if n < left.newlines then nthNewlinePosRaw left n
    else (nthNewlinePosRaw right (n - left.newlines)).map fun rightPos => leftLen + rightPos

/-- The offset just after the `n`th newline. -/
def nthNewlinePos (node : Node) (n : Nat) : Option Nat := (node.nthNewlinePosRaw n).map (· + 1)

end Node

namespace RopeBuffer

def lineCount (r : RopeBuffer) : Nat := r.root.newlines + 1

def lineStart (r : RopeBuffer) (lineIdx : Nat) : Option Nat :=
  if lineIdx = 0 then some 0
  else if r.lineCount ≤ lineIdx then none
  else r.root.nthNewlinePos (lineIdx - 1)

def lineRange (r : RopeBuffer) (lineIdx : Nat) : Option (Nat × Nat) :=
  if r.lineCount ≤ lineIdx then none
  else
    (if lineIdx = 0 then some 0 else r.root.nthNewlinePos (lineIdx - 1)).map fun start =>
      (start, if lineIdx + 1 < r.lineCount then (r.root.nthNewlinePosRaw lineIdx).getD r.len else r.len)

def getLine (r : RopeBuffer) (lineIdx : Nat) : Option (List UInt32) :=
  match r.lineRange lineIdx with
  | some (s, e) => r.slice s e
  | none => some []

/-- `a - b` on `usize`. -/
def checkedSub (a b : Nat) : Option Nat := if b ≤ a then some (a - b) else none

def offsetToLineCol (r : RopeBuffer) (offset : Nat) : Option (Nat × Nat) :=
  let pos := min offset r.len
  let nl := r.root.countNewlinesBefore pos
  let lineStartOff := if nl = 0 then 0 else (r.root.nthNewlinePos (nl - 1)).getD 0
  (checkedSub pos lineStartOff).map fun col => (nl, col)

def lineColToOffset (r : RopeBuffer) (line col : Nat) : Option Nat :=
  let start := (r.lineStart line).getD r.len
  match r.lineRange line with
  | some (s, e) => (checkedSub e s).map fun width => start + min col width
  | none => some start

end RopeBuffer

/-! The newlines of a text. -/

theorem nthNewline_zero (rest : List UInt32) : nthNewlinePosRaw (newline :: rest) 0 = some 0 := rfl

theorem nthNewline_succ (rest : List UInt32) (n : Nat) :
    nthNewlinePosRaw (newline :: rest) (n + 1) = (nthNewlinePosRaw rest n).map (· + 1) := rfl

theorem nthNewline_other {cp : UInt32} (h : cp ≠ newline) (rest : List UInt32) (n : Nat) :
    nthNewlinePosRaw (cp :: rest) n = (nthNewlinePosRaw rest n).map (· + 1) := if_neg h

theorem countNewlines_cons (rest : List UInt32) :
    countNewlines (newline :: rest) = countNewlines rest + 1 := List.countP_cons_of_pos rfl

theorem countNewlines_other {cp : UInt32} (h : cp ≠ newline) (rest : List UInt32) :
    countNewlines (cp :: rest) = countNewlines rest :=
  List.countP_cons_of_neg fun hEq => h (beq_iff_eq.mp hEq)

theorem map_shift (pos : Option Nat) (i : Nat) :
    (pos.map (i + ·)).map (· + 1) = pos.map (i + 1 + ·) := by
  rw [Option.map_map]
  exact congrArg (Option.map · pos) (funext fun p => Nat.add_right_comm i p 1)

theorem map_shift' (pos : Option Nat) (i : Nat) :
    (pos.map (· + 1)).map (i + ·) = pos.map (i + 1 + ·) := by
  rw [Option.map_map]
  exact congrArg (Option.map · pos) (funext fun p => (Nat.add_right_comm i 1 p).symm)

theorem nthNewlinePosRaw_append (xs ys : List UInt32) (n : Nat) :
    nthNewlinePosRaw (xs ++ ys) n =
      if n < countNewlines xs then nthNewlinePosRaw xs n
      else (nthNewlinePosRaw ys (n - countNewlines xs)).map (xs.length + ·) := by
  induction xs generalizing n with
  | nil =>
    have hId : ((fun p => 0 + p) : Nat → Nat) = id := funext Nat.zero_add
    rw [List.nil_append, List.length_nil, hId, Option.map_id]
    rfl
  | cons cp xs ih =>
    rw [List.cons_append, List.length_cons]
    by_cases hcp : cp = newline
    · subst hcp
      rw [countNewlines_cons]
      cases n with
      | zero =>
        rw [if_pos (Nat.succ_pos _), nthNewline_zero, nthNewline_zero]
      | succ n =>
        rw [nthNewline_succ, nthNewline_succ, ih n, Nat.add_sub_add_right]
        split
        · rw [if_pos (by omega)]
        · rw [if_neg (by omega), map_shift]
    · rw [nthNewline_other hcp, nthNewline_other hcp, countNewlines_other hcp, ih n]
      split
      · rfl
      · exact map_shift _ _

/-! The descent. -/

namespace Node

theorem countNewlinesBefore_eq {node : Node} (h : node.Exact) (pos : Nat) :
    node.countNewlinesBefore pos = countNewlines (node.text.take pos) := by
  induction node generalizing pos with
  | leaf buf k =>
    rw [countNewlinesBefore, text_leaf]
    split
    · rename_i hZero
      rw [hZero, List.take_zero]
      rfl
    · rw [take_min_length]
  | branch left right leftLen totalLen totalNewlines height ihLeft ihRight =>
    obtain ⟨hLeft, hRight, hLen, _⟩ := h
    rw [countNewlinesBefore, text_branch, List.take_append, countNewlines_append]
    split
    · rename_i hZero
      rw [hZero, Nat.zero_sub, List.take_zero, List.take_zero]
      rfl
    · split
      · rename_i hLow
        rw [ihLeft hLeft, Nat.sub_eq_zero_of_le (hLen ▸ hLow), List.take_zero]
        rfl
      · rename_i hHigh
        rw [ihRight hRight, hLeft.newlines_eq, hLen,
          List.take_of_length_le (l := left.text) (by omega)]

theorem scanLeaf_eq (n : Nat) (buf : List UInt32) (i : Nat) {count : Nat} (h : count ≤ n) :
    scanLeaf n buf i count = (Editor.nthNewlinePosRaw buf (n - count)).map (i + ·) := by
  induction buf generalizing i count with
  | nil => rfl
  | cons cp rest ih =>
    rw [scanLeaf]
    by_cases hcp : cp = newline
    · subst hcp
      rw [if_pos rfl]
      by_cases hCount : count = n
      · rw [if_pos hCount, hCount, Nat.sub_self, nthNewline_zero]
        rfl
      · obtain ⟨k, hk⟩ : ∃ k, n - count = k + 1 := ⟨n - count - 1, by omega⟩
        have hNext : n - (count + 1) = k := by omega
        rw [if_neg hCount, ih (i + 1) (by omega), hk, hNext, nthNewline_succ, map_shift']
    · rw [if_neg hcp, ih (i + 1) h, nthNewline_other hcp, map_shift']

theorem nthNewlinePosRaw_eq {node : Node} (h : node.Exact) (n : Nat) :
    node.nthNewlinePosRaw n = Editor.nthNewlinePosRaw node.text n := by
  induction node generalizing n with
  | leaf buf k =>
    have hId : ((fun p => 0 + p) : Nat → Nat) = id := funext Nat.zero_add
    rw [nthNewlinePosRaw, text_leaf, scanLeaf_eq n buf 0 (Nat.zero_le n), hId, Option.map_id]
    rfl
  | branch left right leftLen totalLen totalNewlines height ihLeft ihRight =>
    obtain ⟨hLeft, hRight, hLen, _⟩ := h
    rw [nthNewlinePosRaw, text_branch, nthNewlinePosRaw_append, ihLeft hLeft, ihRight hRight,
      hLeft.newlines_eq, hLen]

theorem nthNewlinePos_eq {node : Node} (h : node.Exact) (n : Nat) :
    node.nthNewlinePos n = Editor.nthNewlinePos node.text n :=
  congrArg (Option.map (· + 1)) (nthNewlinePosRaw_eq h n)

end Node

/-! The queries on the text. -/

/-- The lines of a text. -/
def textLines (text : List UInt32) : List (List UInt32) := lines newline text

theorem textLines_length (text : List UInt32) : (textLines text).length = countNewlines text + 1 :=
  lines_length newline text

theorem textLines_pos (text : List UInt32) : 0 < (textLines text).length :=
  List.length_pos_iff.mpr (lines_ne_nil newline text)

theorem countNewlines_free {line : List UInt32} (h : newline ∉ line) : countNewlines line = 0 :=
  List.count_eq_zero.mpr h

section

variable {text : List UInt32} {i : Nat} {line : List UInt32}

theorem textLines_at (h : (textLines text)[i]? = some line) :
    ∃ before rest, text = before ++ line ++ rest ∧
      before.length = lineOffset (textLines text) i ∧ countNewlines before = i ∧ newline ∉ line ∧
      (if i + 1 = (textLines text).length then rest = [] else rest.head? = some newline) :=
  lines_at newline h

/-- A line ends at its newline. -/
theorem nthNewlinePosRaw_line (h : (textLines text)[i]? = some line)
    (hi : i + 1 < (textLines text).length) :
    nthNewlinePosRaw text i = some (lineOffset (textLines text) i + line.length) := by
  obtain ⟨before, rest, hText, hBefore, hCount, hFree, hEnd⟩ := textLines_at h
  rw [if_neg (Nat.ne_of_lt hi)] at hEnd
  obtain ⟨rest', rfl⟩ := List.head?_eq_some_iff.mp hEnd
  have hNewlines : countNewlines (before ++ line) = i := by
    rw [Node.countNewlines_append, countNewlines_free hFree, hCount, Nat.add_zero]
  calc nthNewlinePosRaw text i
      = nthNewlinePosRaw (before ++ line ++ newline :: rest') i := by rw [← hText]
    _ = some (before ++ line).length := by
      rw [nthNewlinePosRaw_append, if_neg (by omega), hNewlines, Nat.sub_self, nthNewline_zero]
      rfl
    _ = some (lineOffset (textLines text) i + line.length) := by
      rw [List.length_append, hBefore]

/-- The next line starts behind it. -/
theorem nthNewlinePos_line (hi : i + 1 < (textLines text).length) :
    nthNewlinePos text i = some (lineOffset (textLines text) (i + 1)) := by
  obtain ⟨line, hLine⟩ : ∃ line, (textLines text)[i]? = some line :=
    ⟨_, List.getElem?_eq_getElem (Nat.lt_of_succ_lt hi)⟩
  rw [nthNewlinePos, nthNewlinePosRaw_line hLine hi, lineOffset_succ _ hLine]
  rfl

theorem lineOffset_le (h : (textLines text)[i]? = some line) :
    lineOffset (textLines text) i + line.length ≤ text.length := by
  obtain ⟨before, rest, hText, hBefore, _⟩ := textLines_at h
  have hLength := congrArg List.length hText
  rw [List.length_append, List.length_append] at hLength
  omega

/-- The last line ends with the text. -/
theorem lineOffset_last (h : (textLines text)[i]? = some line)
    (hi : i + 1 = (textLines text).length) :
    lineOffset (textLines text) i + line.length = text.length := by
  obtain ⟨before, rest, hText, hBefore, _, _, hEnd⟩ := textLines_at h
  rw [if_pos hi] at hEnd
  have hLength := congrArg List.length hText
  rw [hEnd, List.append_nil, List.length_append] at hLength
  omega

theorem line_slice (h : (textLines text)[i]? = some line) :
    listSlice text (lineOffset (textLines text) i)
      (lineOffset (textLines text) i + line.length) = line := by
  obtain ⟨before, rest, hText, hBefore, _⟩ := textLines_at h
  calc listSlice text (lineOffset (textLines text) i) (lineOffset (textLines text) i + line.length)
      = listSlice (before ++ line ++ rest) before.length (before.length + line.length) := by
        rw [← hText, hBefore]
    _ = line := listSlice_at before line rest

/-- The newlines before a place on a line. -/
theorem newlines_before (h : (textLines text)[i]? = some line) {col : Nat} (hCol : col ≤ line.length) :
    countNewlines (text.take (lineOffset (textLines text) i + col)) = i := by
  obtain ⟨before, rest, hText, hBefore, hCount, hFree, _⟩ := textLines_at h
  have hCut : text.take (lineOffset (textLines text) i + col) = before ++ line.take col :=
    calc text.take (lineOffset (textLines text) i + col)
        = (before ++ (line ++ rest)).take (before.length + col) := by
          rw [← List.append_assoc, ← hText, hBefore]
      _ = before ++ line.take col := by
          rw [List.take_length_add_append, List.take_append_of_le_length hCol]
  rw [hCut, Node.countNewlines_append, hCount,
    countNewlines_free fun hMem => hFree (List.mem_of_mem_take hMem), Nat.add_zero]

end

/-! The index of a rope. -/

/-- The line queries of a rope answer for the lines of its text, at every line, offset and column. -/
structure Indexed (r : RopeBuffer) (ls : List (List UInt32)) : Prop where
  count : r.lineCount = countNewlines r.contents + 1 ∧ r.lineCount = ls.length
  free : ∀ line ∈ ls, newline ∉ line
  start : ∀ i, r.lineStart i = if i < ls.length then some (lineOffset ls i) else none
  range : ∀ i, r.lineRange i = ls[i]?.map fun line => (lineOffset ls i, lineOffset ls i + line.length)
  line : ∀ i, r.getLine i = some (ls[i]?.getD [])
  /-- An offset lies on a line, and one past the end is taken for the end. -/
  place : ∀ offset, ∃ i line col, ls[i]? = some line ∧ col ≤ line.length ∧
    lineOffset ls i + col = min offset r.contents.length ∧ r.offsetToLineCol offset = some (i, col)
  /-- A column past the line is taken for its end, a line past the last for the end of the text. -/
  offset : ∀ i col, r.lineColToOffset i col = some (match ls[i]? with
    | some line => lineOffset ls i + min col line.length
    | none => r.contents.length)
  back : ∀ offset, offset ≤ r.contents.length →
    ((r.offsetToLineCol offset).bind fun p => r.lineColToOffset p.1 p.2) = some offset
  forth : ∀ i line col, ls[i]? = some line → col ≤ line.length →
    (r.lineColToOffset i col).bind r.offsetToLineCol = some (i, col)

namespace RopeBuffer

variable {r : RopeBuffer}

theorem lineCount_eq (h : r.Exact) : r.lineCount = countNewlines r.contents + 1 :=
  congrArg (· + 1) h.newlines_eq

theorem lineCount_lines (h : r.Exact) : r.lineCount = (textLines r.contents).length := by
  rw [lineCount_eq h, textLines_length]

theorem rawNewline_eq (h : r.Exact) (n : Nat) :
    r.root.nthNewlinePosRaw n = nthNewlinePosRaw r.contents n :=
  Node.nthNewlinePosRaw_eq h n

/-- The start of a line that exists, first or not. -/
theorem startOf_eq (h : r.Exact) {i : Nat} (hi : i < (textLines r.contents).length) :
    (if i = 0 then some 0 else r.root.nthNewlinePos (i - 1)) =
      some (lineOffset (textLines r.contents) i) := by
  cases i with
  | zero => rfl
  | succ i =>
    rw [if_neg (Nat.succ_ne_zero i), Nat.add_sub_cancel, Node.nthNewlinePos_eq h]
    exact nthNewlinePos_line hi

theorem lineStart_eq (h : r.Exact) (i : Nat) :
    r.lineStart i = if i < (textLines r.contents).length
      then some (lineOffset (textLines r.contents) i) else none := by
  have hPos := textLines_pos r.contents
  rw [lineStart, lineCount_lines h]
  by_cases hi : i < (textLines r.contents).length
  · rw [if_pos hi, if_neg (Nat.not_le_of_lt hi), startOf_eq h hi]
  · rw [if_neg hi, if_neg (by omega), if_pos (Nat.le_of_not_lt hi)]

theorem lineRange_eq (h : r.Exact) (i : Nat) :
    r.lineRange i = (textLines r.contents)[i]?.map fun line =>
      (lineOffset (textLines r.contents) i, lineOffset (textLines r.contents) i + line.length) := by
  rw [lineRange, lineCount_lines h]
  by_cases hi : i < (textLines r.contents).length
  · obtain ⟨line, hLine⟩ : ∃ line, (textLines r.contents)[i]? = some line :=
      ⟨_, List.getElem?_eq_getElem hi⟩
    rw [if_neg (Nat.not_le_of_lt hi), startOf_eq h hi, hLine, Option.map_some, Option.map_some,
      rawNewline_eq h, len_eq h]
    by_cases hNext : i + 1 < (textLines r.contents).length
    · rw [if_pos hNext, nthNewlinePosRaw_line hLine hNext]
      rfl
    · rw [if_neg hNext, lineOffset_last hLine (by omega)]
  · rw [if_pos (Nat.le_of_not_lt hi), List.getElem?_eq_none (Nat.le_of_not_lt hi)]
    rfl

theorem getLine_eq (h : r.Exact) (i : Nat) :
    r.getLine i = some ((textLines r.contents)[i]?.getD []) := by
  rw [getLine, lineRange_eq h]
  cases hLine : (textLines r.contents)[i]? with
  | none => rfl
  | some line =>
    show r.slice _ _ = some line
    rw [slice_eq h, line_slice hLine]

/-- The answer for a place on a line. -/
theorem offsetToLineCol_at (h : r.Exact) {offset i : Nat} {line : List UInt32} {col : Nat}
    (hLine : (textLines r.contents)[i]? = some line) (hCol : col ≤ line.length)
    (hPlace : lineOffset (textLines r.contents) i + col = min offset r.contents.length) :
    r.offsetToLineCol offset = some (i, col) := by
  have hi : i < (textLines r.contents).length := (List.getElem?_eq_some_iff.mp hLine).1
  have hNewlines : r.root.countNewlinesBefore (min offset r.contents.length) = i := by
    rw [← hPlace, Node.countNewlinesBefore_eq h]
    exact newlines_before hLine hCol
  have hStart : (if i = 0 then 0 else (r.root.nthNewlinePos (i - 1)).getD 0) =
      lineOffset (textLines r.contents) i := by
    have hSome := startOf_eq h hi
    split at hSome
    · rename_i hZero
      rw [if_pos hZero]
      exact Option.some.inj hSome
    · rename_i hZero
      rw [if_neg hZero, hSome]
      rfl
  rw [offsetToLineCol, len_eq h, hNewlines, hStart, checkedSub, if_pos (by omega), ← hPlace, Nat.add_sub_cancel_left]
  rfl

theorem lineColToOffset_eq (h : r.Exact) (i col : Nat) :
    r.lineColToOffset i col = some (match (textLines r.contents)[i]? with
      | some line => lineOffset (textLines r.contents) i + min col line.length
      | none => r.contents.length) := by
  rw [lineColToOffset, lineStart_eq h, lineRange_eq h, len_eq h]
  cases hLine : (textLines r.contents)[i]? with
  | none =>
    rw [if_neg (Nat.not_lt_of_le (List.getElem?_eq_none_iff.mp hLine))]
    rfl
  | some line =>
    rw [if_pos (List.getElem?_eq_some_iff.mp hLine).1]
    show (checkedSub _ _).map _ = _
    rw [checkedSub, if_pos (Nat.le_add_right _ _), Nat.add_sub_cancel_left]
    rfl

/-- What the queries of an exact rope answer. -/
theorem indexed (h : r.Exact) : Indexed r (textLines r.contents) where
  count := ⟨lineCount_eq h, lineCount_lines h⟩
  free line hMem := by
    obtain ⟨i, hLine⟩ := List.mem_iff_getElem?.mp hMem
    obtain ⟨_, _, _, _, _, hFree, _⟩ := textLines_at hLine
    exact hFree
  start := lineStart_eq h
  range := lineRange_eq h
  line := getLine_eq h
  place offset := by
    obtain ⟨i, line, col, hLine, hCol, hPlace⟩ :=
      exists_position newline r.contents (Nat.min_le_right offset r.contents.length)
    exact ⟨i, line, col, hLine, hCol, hPlace, offsetToLineCol_at h hLine hCol hPlace⟩
  offset := lineColToOffset_eq h
  back offset hIn := by
    obtain ⟨i, line, col, hLine, hCol, hPlace⟩ := exists_position newline r.contents hIn
    have hLine' : (textLines r.contents)[i]? = some line := hLine
    have hPlace' : lineOffset (textLines r.contents) i + col = offset := hPlace
    rw [offsetToLineCol_at h hLine hCol (hPlace'.trans (Nat.min_eq_left hIn).symm), Option.bind_some,
      lineColToOffset_eq h]
    dsimp only
    rw [hLine']
    dsimp only
    rw [Nat.min_eq_left hCol, hPlace']
  forth i line col hLine hCol := by
    have hIn := lineOffset_le hLine
    rw [lineColToOffset_eq h, hLine, Option.bind_some]
    refine offsetToLineCol_at h hLine hCol ?_
    dsimp only
    rw [Nat.min_eq_left hCol, Nat.min_eq_left (by omega)]

end RopeBuffer

/-- After any edits of any text the line index of the rope agrees with the lines of the text. -/
theorem line_index (text : List UInt32) (edits : List Edit) :
    ∃ r, (RopeBuffer.fromSlice text).bind (runEdits · edits) = some r ∧
      r.contents = edits.foldl Edit.onList text ∧ Indexed r (textLines r.contents) := by
  obtain ⟨first, hFirst, hExactFirst, hTextFirst⟩ := RopeBuffer.fromSlice_holds text
  obtain ⟨r, hRun, hExact, hText⟩ := runEdits_holds hExactFirst edits
  rw [hTextFirst] at hText
  exact ⟨r, by rw [hFirst]; exact hRun, hText, RopeBuffer.indexed hExact⟩

end FactorForth.Editor
