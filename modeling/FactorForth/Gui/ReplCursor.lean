import FactorForth.Gui.ReplInput

/-! The cursor of a REPL pane along a run of keys. Every key keeps it at a boundary of the input except
word-left, which steps over the last character of a word without counting it. -/

namespace FactorForth.Gui
open FactorForth.Library FactorForth.Compiler

/-! Strings cut at boundaries. -/

section Strings
variable {s : List Char} {i j : Nat}

theorem exists_split (h : isCharBoundary s i = true) :
    ∃ front back, s = front ++ back ∧ byteLen front = i := isCharBoundary_iff.mp h

theorem strBefore_append (front back : List Char) :
    strBefore (front ++ back) (byteLen front) = some front := by
  rw [strBefore, splitAtByte_append]
  rfl

theorem strBehind_append (front back : List Char) :
    strBehind (front ++ back) (byteLen front) = some back := by
  rw [strBehind, splitAtByte_append]
  rfl

theorem insertStr_append (front back t : List Char) :
    insertStr (front ++ back) (byteLen front) t = some (front ++ t ++ back) := by
  rw [insertStr, splitAtByte_append]
  rfl

theorem insertStr_boundary (h : isCharBoundary s i = true) (t : List Char) :
    ∃ text, insertStr s i t = some text ∧ isCharBoundary text (i + byteLen t) = true := by
  obtain ⟨front, back, rfl, rfl⟩ := exists_split h
  refine ⟨_, insertStr_append front back t, ?_⟩
  rw [← byteLen_append]
  exact isCharBoundary_append _ back

theorem exists_cut (hi : isCharBoundary s i = true) (hj : isCharBoundary s j = true) (hij : i ≤ j) :
    ∃ front mid back, s = front ++ (mid ++ back) ∧ byteLen front = i ∧
      byteLen front + byteLen mid = j := by
  obtain ⟨front, rest, rfl, rfl⟩ := exists_split hi
  have hMid : isCharBoundary rest (j - byteLen front) = true := by
    rw [← isCharBoundary_behind front]
    rwa [Nat.add_sub_cancel' hij]
  obtain ⟨mid, back, rfl, hLen⟩ := exists_split hMid
  exact ⟨front, mid, back, rfl, rfl, by omega⟩

theorem cutStr_append (front mid back : List Char) :
    cutStr (front ++ (mid ++ back)) (byteLen front) (byteLen front + byteLen mid) =
      some (front, mid, back) := by
  rw [cutStr, if_pos (Nat.le_add_right _ _), splitAtByte_append, Option.bind_some,
    Nat.add_sub_cancel_left, splitAtByte_append]
  rfl

theorem drainStr_boundary (hi : isCharBoundary s i = true) (hj : isCharBoundary s j = true)
    (hij : i ≤ j) : ∃ text, drainStr s i j = some text ∧ isCharBoundary text i = true := by
  obtain ⟨front, mid, back, rfl, rfl, rfl⟩ := exists_cut hi hj hij
  refine ⟨front ++ back, ?_, isCharBoundary_append front back⟩
  rw [drainStr, cutStr_append]
  rfl

theorem boundaryDown_boundary (s : List Char) (i : Nat) :
    isCharBoundary s (boundaryDown s i) = true := by
  induction i with
  | zero => exact isCharBoundary_zero s
  | succ i ih =>
    rw [boundaryDown]
    split
    · assumption
    · exact ih

theorem boundaryDown_le (s : List Char) (i : Nat) : boundaryDown s i ≤ i := by
  induction i with
  | zero => exact Nat.le_refl 0
  | succ i ih =>
    rw [boundaryDown]
    split
    · exact Nat.le_refl _
    · exact Nat.le_succ_of_le ih

theorem boundaryUp_ge (s : List Char) (i : Nat) : i ≤ boundaryUp s i := by
  induction i using boundaryUp.induct s with
  | case1 i h ih =>
    rw [boundaryUp, if_pos h]
    exact Nat.le_of_succ_le ih
  | case2 i h =>
    rw [boundaryUp, if_neg h]

/-- The loop stops at a boundary, at the end of the string at the latest. -/
theorem boundaryUp_boundary (h : i ≤ byteLen s) :
    isCharBoundary s (boundaryUp s i) = true := by
  induction i using boundaryUp.induct s with
  | case1 i hStep ih =>
    rw [boundaryUp, if_pos hStep]
    apply ih
    -- the end is a boundary, so the loop goes on only in front of it
    have hNotEnd : i ≠ byteLen s := by
      rintro rfl
      have hEnd := hStep.2
      rw [isCharBoundary_end] at hEnd
      cases hEnd
    omega
  | case2 i hStop =>
    rw [boundaryUp, if_neg hStop]
    by_contra hNot
    exact hStop ⟨h, Bool.eq_false_iff.mpr hNot⟩

theorem nextCharBoundary_boundary (h : i < byteLen s) :
    isCharBoundary s (nextCharBoundary s i) = true ∧ i ≤ nextCharBoundary s i := by
  have hNext := boundaryUp_boundary (Nat.succ_le_of_lt h)
  have hLe := isCharBoundary_le hNext
  rw [nextCharBoundary, Nat.min_eq_left hLe]
  exact ⟨hNext, Nat.le_of_succ_le (boundaryUp_ge s (i + 1))⟩

theorem findNewline_some {nl : Nat} (h : findNewline s = some nl) :
    ∃ front back, s = front ++ '\n' :: back ∧ byteLen front = nl := by
  induction s generalizing nl with
  | nil => cases h
  | cons c s ih =>
    rw [findNewline] at h
    split at h
    · next hc =>
      obtain rfl := Option.some.inj h
      exact ⟨[], s, by rw [hc, List.nil_append], rfl⟩
    · obtain ⟨nl', hRest, rfl⟩ := Option.map_eq_some_iff.mp h
      obtain ⟨front, back, rfl, rfl⟩ := ih hRest
      exact ⟨c :: front, back, rfl, byteLen_cons c front⟩

theorem rfindNewline_some {nl : Nat} (h : rfindNewline s = some nl) :
    ∃ front back, s = front ++ '\n' :: back ∧ byteLen front = nl := by
  induction s generalizing nl with
  | nil => cases h
  | cons c s ih =>
    rw [rfindNewline] at h
    split at h
    · next nl' hRest =>
      obtain rfl := Option.some.inj h
      obtain ⟨front, back, rfl, rfl⟩ := ih hRest
      exact ⟨c :: front, back, rfl, byteLen_cons c front⟩
    · split at h
      · next hc =>
        obtain rfl := Option.some.inj h
        exact ⟨[], s, by rw [hc, List.nil_append], rfl⟩
      · cases h

end Strings

/-! A valid cursor, and the keys that keep it. -/

namespace ReplInput

/-- The cursor is at a boundary of the input, and a walk through the history is inside it. -/
structure Valid (s : ReplInput) : Prop where
  cursor : isCharBoundary s.input s.cursorByte = true
  walk : ∀ i, s.historyIdx = some i → i < s.history.length

theorem Valid.cursor_le {s : ReplInput} (h : s.Valid) : s.cursorByte ≤ byteLen s.input :=
  isCharBoundary_le h.cursor

theorem new_valid : new.Valid := ⟨rfl, fun _ h => by cases h⟩

/-- A key that does not panic and leaves a valid cursor. -/
def Keeps (s : Option ReplInput) : Prop := ∃ t, s = some t ∧ t.Valid

section Keys
variable {s : ReplInput}

theorem Valid.split (h : s.Valid) :
    ∃ front back, s.input = front ++ back ∧ byteLen front = s.cursorByte := exists_split h.cursor

theorem Valid.at (h : s.Valid) {i : Nat} (hi : isCharBoundary s.input i = true) :
    Valid { s with cursorByte := i } := ⟨hi, h.walk⟩

theorem Valid.insertChar (h : s.Valid) (c : Char) : Keeps (s.insertChar c) := by
  obtain ⟨text, hText, hCursor⟩ := insertStr_boundary h.cursor [c]
  rw [byteLen_cons, byteLen_nil, Nat.add_zero] at hCursor
  refine ⟨⟨text, s.cursorByte + c.utf8Size, s.history, none, s.savedInput⟩, ?_, hCursor, ?_⟩
  · rw [ReplInput.insertChar, hText]
    rfl
  · intro i hi
    cases hi

theorem Valid.insertChars (h : s.Valid) (cs : List Char) : Keeps (insertChars cs s) := by
  induction cs generalizing s with
  | nil => exact ⟨s, rfl, h⟩
  | cons c cs ih =>
    obtain ⟨t, hInsert, hValid⟩ := h.insertChar c
    rw [ReplInput.insertChars, hInsert, Option.bind_some]
    exact ih hValid

theorem Valid.drain (h : s.Valid) {i j : Nat} (hi : isCharBoundary s.input i = true)
    (hj : isCharBoundary s.input j = true) (hij : i ≤ j) :
    Keeps ((drainStr s.input i j).map fun input => { s with input, cursorByte := i }) := by
  obtain ⟨text, hText, hCursor⟩ := drainStr_boundary hi hj hij
  exact ⟨{ s with input := text, cursorByte := i }, by rw [hText]; rfl, hCursor, h.walk⟩

theorem Valid.deleteBack (h : s.Valid) : Keeps s.deleteBack := by
  rw [ReplInput.deleteBack]
  split
  · exact ⟨s, rfl, h⟩
  · have hLe := boundaryDown_le s.input (s.cursorByte - 1)
    exact h.drain (boundaryDown_boundary _ _) h.cursor (by omega)

theorem Valid.deleteForward (h : s.Valid) : Keeps s.deleteForward := by
  rw [ReplInput.deleteForward]
  split
  · exact ⟨s, rfl, h⟩
  · next hLt =>
    obtain ⟨hNext, hLe⟩ := nextCharBoundary_boundary (Nat.lt_of_not_le hLt)
    exact h.drain h.cursor hNext hLe

theorem Valid.moveLeft (h : s.Valid) : s.moveLeft.Valid := by
  rw [ReplInput.moveLeft]
  split
  · exact h
  · exact h.at (boundaryDown_boundary _ _)

theorem Valid.moveRight (h : s.Valid) : s.moveRight.Valid := by
  rw [ReplInput.moveRight]
  split
  · exact h
  · next hLt => exact h.at (nextCharBoundary_boundary (Nat.lt_of_not_le hLt)).1

theorem Valid.lineStart (h : s.Valid) :
    ∃ i, s.lineStart = some i ∧ isCharBoundary s.input i = true ∧ i ≤ s.cursorByte := by
  obtain ⟨front, back, hInput, hCursor⟩ := h.split
  have hBefore : strBefore s.input s.cursorByte = some front := by
    rw [hInput, ← hCursor]
    exact strBefore_append front back
  rw [ReplInput.lineStart, hBefore, Option.map_some]
  cases hNewline : rfindNewline front with
  | none => exact ⟨0, rfl, isCharBoundary_zero _, Nat.zero_le _⟩
  | some nl =>
    obtain ⟨lines, line, rfl, rfl⟩ := rfindNewline_some hNewline
    have hStart : byteLen lines + 1 = byteLen (lines ++ ['\n']) := by
      rw [byteLen_append]
      rfl
    refine ⟨byteLen lines + 1, rfl, ?_, ?_⟩
    · rw [hInput, hStart, ← List.singleton_append, ← List.append_assoc, List.append_assoc]
      exact isCharBoundary_append _ _
    · rw [← hCursor, ← List.singleton_append, ← List.append_assoc, byteLen_append, ← hStart]
      exact Nat.le_add_right _ _

theorem Valid.moveHome (h : s.Valid) : Keeps s.moveHome := by
  obtain ⟨i, hStart, hBoundary, -⟩ := h.lineStart
  exact ⟨_, by rw [ReplInput.moveHome, hStart]; rfl, h.at hBoundary⟩

/-- Where the next line feed is, behind the cursor. -/
theorem Valid.newline (h : s.Valid) :
    ∃ behind, strBehind s.input s.cursorByte = some behind ∧
      ∀ nl, findNewline behind = some nl →
        isCharBoundary s.input (s.cursorByte + nl) = true := by
  obtain ⟨front, back, hInput, hCursor⟩ := h.split
  refine ⟨back, ?_, ?_⟩
  · rw [hInput, ← hCursor]
    exact strBehind_append front back
  · intro nl hNewline
    obtain ⟨line, lines, rfl, rfl⟩ := findNewline_some hNewline
    rw [hInput, ← hCursor, isCharBoundary_behind]
    exact isCharBoundary_append line _

theorem Valid.moveEnd (h : s.Valid) : Keeps s.moveEnd := by
  obtain ⟨behind, hBehind, hNewline⟩ := h.newline
  rw [ReplInput.moveEnd, hBehind, Option.map_some]
  cases hFind : findNewline behind with
  | some nl => exact ⟨_, rfl, h.at (hNewline nl hFind)⟩
  | none => exact ⟨_, rfl, h.at (isCharBoundary_end _)⟩

theorem Valid.moveWordRight (h : s.Valid) : Keeps s.moveWordRight := by
  obtain ⟨front, back, hInput, hCursor⟩ := h.split
  have hBehind : strBehind s.input s.cursorByte = some back := by
    rw [hInput, ← hCursor]
    exact strBehind_append front back
  have hWord : strBehind back (byteLen (back.takeWhile isWhitespace)) =
      some (back.dropWhile isWhitespace) := by
    have hAppend := strBehind_append (back.takeWhile isWhitespace) (back.dropWhile isWhitespace)
    rwa [List.takeWhile_append_dropWhile] at hAppend
  rw [ReplInput.moveWordRight, hBehind, Option.bind_some]
  dsimp only
  rw [hWord, Option.map_some]
  refine ⟨_, rfl, h.at ?_⟩
  have hEnd := isCharBoundary_append
    (back.takeWhile isWhitespace ++ (back.dropWhile isWhitespace).takeWhile (!isWhitespace ·))
    ((back.dropWhile isWhitespace).dropWhile (!isWhitespace ·))
  rw [List.append_assoc, List.takeWhile_append_dropWhile, List.takeWhile_append_dropWhile,
    byteLen_append] at hEnd
  rw [hInput, ← hCursor, isCharBoundary_behind]
  exact hEnd

theorem showEntry_keeps {i : Nat} (hi : i < s.history.length) : Keeps (s.showEntry i) := by
  rw [ReplInput.showEntry, List.getElem?_eq_getElem hi, Option.map_some]
  refine ⟨_, rfl, isCharBoundary_end _, ?_⟩
  intro j hj
  obtain rfl := Option.some.inj hj
  exact hi

theorem Valid.historyUp (h : s.Valid) : Keeps s.historyUp := by
  rw [ReplInput.historyUp]
  split
  · exact ⟨s, rfl, h⟩
  · next hSome =>
    have hLen : 0 < s.history.length := List.length_pos_iff.mpr (by simpa using hSome)
    cases hIdx : s.historyIdx with
    | none =>
      exact showEntry_keeps (Nat.sub_lt hLen Nat.one_pos)
    | some i =>
      cases i with
      | zero => exact ⟨s, rfl, h⟩
      | succ i => exact showEntry_keeps (Nat.lt_of_succ_lt (h.walk _ hIdx))

theorem Valid.historyDown (h : s.Valid) : Keeps s.historyDown := by
  rw [ReplInput.historyDown]
  cases hIdx : s.historyIdx with
  | none => exact ⟨s, rfl, h⟩
  | some i =>
    dsimp only
    split
    · exact ⟨_, rfl, isCharBoundary_end _, fun _ hWalk => nomatch hWalk⟩
    · next hLt => exact showEntry_keeps (Nat.lt_of_not_le hLt)

theorem Valid.cleared (h : s.Valid) {t : ReplInput} (hCursor : t.cursorByte = 0)
    (hWalk : t.historyIdx = none ∨
      t.historyIdx = s.historyIdx ∧ t.history = s.history) : t.Valid := by
  refine ⟨?_, ?_⟩
  · rw [hCursor]
    exact isCharBoundary_zero _
  · intro i hi
    rcases hWalk with hNone | ⟨hIdx, hHistory⟩
    · rw [hNone] at hi
      cases hi
    · rw [hHistory]
      exact h.walk i (hIdx ▸ hi)

theorem Valid.trySubmit (h : s.Valid) : Keeps (s.trySubmit.map Prod.fst) := by
  rw [ReplInput.trySubmit]
  split
  · exact ⟨_, rfl, h.cleared rfl (.inr ⟨rfl, rfl⟩)⟩
  · have hContinue : Keeps (((strBefore s.input s.cursorByte).bind fun before =>
        (s.insertChar '\n').bind fun s =>
          (ReplInput.insertChars (computeIndent before) s).map fun s =>
            (s, (none : Option (List Char)))).map Prod.fst) := by
      obtain ⟨front, back, hInput, hCursor⟩ := h.split
      have hBefore : strBefore s.input s.cursorByte = some front := by
        rw [hInput, ← hCursor]
        exact strBefore_append front back
      obtain ⟨t, hLine, hValid⟩ := h.insertChar '\n'
      obtain ⟨u, hIndent, hEnd⟩ := hValid.insertChars (computeIndent front)
      refine ⟨u, ?_, hEnd⟩
      rw [hBefore, Option.bind_some, hLine, Option.bind_some, hIndent]
      rfl
    cases formComplete s.input with
    | complete => exact ⟨_, rfl, h.cleared rfl (.inl rfl)⟩
    | incomplete => exact hContinue
    | inString => exact hContinue

theorem Valid.killToEnd (h : s.Valid) : Keeps s.killToEnd := by
  obtain ⟨behind, hBehind, hNewline⟩ := h.newline
  rw [ReplInput.killToEnd, hBehind, Option.bind_some]
  cases hFind : findNewline behind with
  | some nl => exact h.drain h.cursor (hNewline nl hFind) (Nat.le_add_right _ _)
  | none =>
    obtain ⟨front, back, hInput, hCursor⟩ := h.split
    refine ⟨{ s with input := front }, ?_, ?_, h.walk⟩
    · show (strBefore s.input s.cursorByte).map _ = _
      rw [hInput, ← hCursor, strBefore_append]
      rfl
    · show isCharBoundary front s.cursorByte = true
      rw [← hCursor]
      exact isCharBoundary_end front

theorem Valid.killToStart (h : s.Valid) : Keeps s.killToStart := by
  obtain ⟨i, hStart, hBoundary, hLe⟩ := h.lineStart
  rw [ReplInput.killToStart, hStart, Option.bind_some]
  exact h.drain hBoundary h.cursor hLe

theorem Valid.cut (h : s.Valid) : s.cut.Valid := by
  rw [ReplInput.cut]
  split
  · exact h
  · exact h.cleared rfl (.inr ⟨rfl, rfl⟩)

theorem Valid.paste (h : s.Valid) (text : List Char) : Keeps (s.paste text) := by
  obtain ⟨input, hText, hCursor⟩ := insertStr_boundary h.cursor text
  exact ⟨{ s with input, cursorByte := s.cursorByte + byteLen text },
    by rw [ReplInput.paste, hText]; rfl, hCursor, h.walk⟩

/-- A valid cursor can be painted. -/
theorem Valid.caret (h : s.Valid) : s.caret.isSome = true := by
  obtain ⟨front, back, hInput, hCursor⟩ := h.split
  obtain ⟨i, hStart, hBoundary, hLe⟩ := h.lineStart
  have hBefore : strBefore s.input s.cursorByte = some front := by
    rw [hInput, ← hCursor]
    exact strBefore_append front back
  have hCol : isCharBoundary s.input (if front.count '\n' = 0 then 0 else i) = true := by
    split
    · exact isCharBoundary_zero _
    · exact hBoundary
  have hColLe : (if front.count '\n' = 0 then 0 else i) ≤ s.cursorByte := by
    split
    · exact Nat.zero_le _
    · exact hLe
  obtain ⟨lines, line, rest, hText, hLines, hLine⟩ := exists_cut hCol h.cursor hColLe
  rw [ReplInput.caret, hBefore, Option.bind_some]
  dsimp only
  rw [hStart, Option.bind_some, ← hLines, ← hLine, hText, cutStr_append]
  rfl

/-! Word-left. -/

/-- The word to the left of the cursor, behind which only white space may stand. -/
def wordToLeft (s : ReplInput) : List Char :=
  (((((strBefore s.input s.cursorByte).getD []).reverse).dropWhile isWhitespace).takeWhile
    (!isWhitespace ·)).reverse

/-- Where that word starts. -/
def wordStart (s : ReplInput) : Nat :=
  byteLen (((((strBefore s.input s.cursorByte).getD []).reverse).dropWhile isWhitespace).dropWhile
    (!isWhitespace ·))

/-- The size of the last character of that word. -/
def lastSize (s : ReplInput) : Nat :=
  match s.wordToLeft.getLast? with
  | some c => c.utf8Size
  | none => 0

theorem skipWhile_eq (p : Char → Bool) (it : List Char) (skip : Nat) :
    skipWhile p it skip = (skip + byteLen (it.takeWhile p), (it.dropWhile p).drop 1) := by
  induction it generalizing skip with
  | nil => rfl
  | cons c it ih =>
    rw [skipWhile]
    split
    · next hp =>
      rw [ih, List.takeWhile_cons, if_pos hp, List.dropWhile_cons, if_pos hp, byteLen_cons,
        Nat.add_assoc]
    · next hp =>
      rw [List.takeWhile_cons, if_neg hp, List.dropWhile_cons, if_neg hp]
      rfl

/-- Word-left goes to the start of the word, and one character on: the first loop takes the last
character of the word without counting it. -/
theorem moveWordLeft_eq (h : s.Valid) :
    s.moveWordLeft = some { s with cursorByte := s.wordStart + s.lastSize } := by
  obtain ⟨front, back, hInput, hCursor⟩ := h.split
  have hBefore : strBefore s.input s.cursorByte = some front := by
    rw [hInput, ← hCursor]
    exact strBefore_append front back
  have hLen : byteLen (front.reverse.takeWhile isWhitespace) +
      byteLen (front.reverse.dropWhile isWhitespace) = s.cursorByte := by
    rw [← byteLen_append, List.takeWhile_append_dropWhile, byteLen_reverse, hCursor]
  rw [ReplInput.moveWordLeft, hBefore, Option.bind_some]
  simp only [skipWhile_eq, Nat.zero_add]
  rw [wordStart, lastSize, wordToLeft, hBefore, Option.getD_some, List.getLast?_reverse]
  cases hWord : front.reverse.dropWhile isWhitespace with
  | nil =>
    rw [hWord, byteLen_nil, Nat.add_zero] at hLen
    rw [List.drop_nil, List.takeWhile_nil, byteLen_nil, Nat.add_zero, hLen, if_pos (Nat.le_refl _),
      Nat.sub_self]
    rfl
  | cons c word =>
    have hc : isWhitespace c = false := by
      have hHead := List.head_dropWhile_not isWhitespace (l := front.reverse)
        (by rw [hWord]; exact List.cons_ne_nil _ _)
      simpa [hWord] using hHead
    have hRest : byteLen (word.takeWhile (!isWhitespace ·)) +
        byteLen (word.dropWhile (!isWhitespace ·)) = byteLen word := by
      rw [← byteLen_append, List.takeWhile_append_dropWhile]
    rw [hWord, byteLen_cons] at hLen
    rw [List.drop_one, List.tail_cons, List.takeWhile_cons, hc, Bool.not_false, if_pos rfl,
      List.dropWhile_cons, hc, Bool.not_false, if_pos rfl, List.head?_cons]
    dsimp only
    rw [if_pos (by omega)]
    congr 2
    omega

/-- It stops at the start of the word exactly when there is no word. -/
theorem stops_iff : s.wordStart + s.lastSize = s.wordStart ↔ s.wordToLeft = [] := by
  rw [lastSize]
  cases hLast : s.wordToLeft.getLast? with
  | none => simp [List.getLast?_eq_none_iff.mp hLast]
  | some c =>
    have hPos := c.utf8Size_pos
    have hNe : s.wordToLeft ≠ [] := by
      intro hNil
      rw [hNil] at hLast
      cases hLast
    simp only [hNe, iff_false]
    omega

/-- The place it goes to is a boundary exactly when the word has one at the size of its last
character. -/
theorem lands_iff (h : s.Valid) :
    isCharBoundary s.input (s.wordStart + s.lastSize) = isCharBoundary s.wordToLeft s.lastSize := by
  obtain ⟨front, back, hInput, hCursor⟩ := h.split
  have hBefore : strBefore s.input s.cursorByte = some front := by
    rw [hInput, ← hCursor]
    exact strBefore_append front back
  have hSize : s.lastSize ≤ byteLen s.wordToLeft := by
    rw [lastSize]
    cases hLast : s.wordToLeft.getLast? with
    | none => exact Nat.zero_le _
    | some c =>
      obtain ⟨word, hWord⟩ := List.getLast?_eq_some_iff.mp hLast
      rw [hWord, byteLen_append, byteLen_cons, byteLen_nil]
      exact Nat.le_add_left _ _
  let rest := front.reverse.dropWhile isWhitespace
  have hWord : s.wordToLeft = (rest.takeWhile (!isWhitespace ·)).reverse := by
    rw [wordToLeft, hBefore]
    rfl
  have hStart : s.wordStart = byteLen (rest.dropWhile (!isWhitespace ·)).reverse := by
    rw [wordStart, hBefore, byteLen_reverse]
    rfl
  have hFront : front = (rest.dropWhile (!isWhitespace ·)).reverse ++
      (s.wordToLeft ++ (front.reverse.takeWhile isWhitespace).reverse) := by
    rw [hWord, ← List.append_assoc, ← List.reverse_append, List.takeWhile_append_dropWhile,
      ← List.reverse_append, List.takeWhile_append_dropWhile, List.reverse_reverse]
  rw [hInput, hStart, hFront, List.append_assoc, isCharBoundary_behind, List.append_assoc,
    isCharBoundary_front hSize]

theorem Valid.moveWordLeft_iff (h : s.Valid) :
    Keeps s.moveWordLeft ↔ isCharBoundary s.wordToLeft s.lastSize = true := by
  rw [moveWordLeft_eq h, ← lands_iff h]
  constructor
  · rintro ⟨t, hEq, hValid⟩
    obtain rfl := Option.some.inj hEq
    exact hValid.cursor
  · intro hLands
    exact ⟨_, rfl, h.at hLands⟩

/-- Every other key keeps the cursor valid. -/
theorem Valid.key (h : s.Valid) {k : ReplKey} (hk : k ≠ .left true) : Keeps (s.key k) := by
  cases k with
  | char cp =>
    rw [ReplInput.key]
    split
    · cases charFromU32 cp with
      | some c => exact h.insertChar c
      | none => exact ⟨s, rfl, h⟩
    · exact ⟨s, rfl, h⟩
  | enter shift =>
    cases shift with
    | true => exact h.insertChar '\n'
    | false => exact h.trySubmit
  | back => exact h.deleteBack
  | delete => exact h.deleteForward
  | left ctrl =>
    cases ctrl with
    | true => exact absurd rfl hk
    | false => exact ⟨_, rfl, h.moveLeft⟩
  | right ctrl =>
    cases ctrl with
    | true => exact h.moveWordRight
    | false => exact ⟨_, rfl, h.moveRight⟩
  | up =>
    obtain ⟨front, back, hInput, hCursor⟩ := h.split
    have hFirst : s.cursorOnFirstLine = some (!front.contains '\n') := by
      rw [cursorOnFirstLine, hInput, ← hCursor, strBefore_append]
      rfl
    rw [ReplInput.key, hFirst, Option.bind_some]
    split
    · exact h.historyUp
    · exact h.moveHome
  | down =>
    obtain ⟨front, back, hInput, hCursor⟩ := h.split
    have hLast : s.cursorOnLastLine = some (!back.contains '\n') := by
      rw [cursorOnLastLine, hInput, ← hCursor, strBehind_append]
      rfl
    rw [ReplInput.key, hLast, Option.bind_some]
    split
    · exact h.historyDown
    · exact h.moveEnd
  | home => exact h.moveHome
  | end_ => exact h.moveEnd
  | toStart => exact ⟨_, rfl, h.at (isCharBoundary_zero _)⟩
  | toEnd => exact ⟨_, rfl, h.at (isCharBoundary_end _)⟩
  | killToEnd => exact h.killToEnd
  | killToStart => exact h.killToStart
  | cut => exact ⟨_, rfl, h.cut⟩
  | paste clipboard =>
    cases clipboard with
    | some text => exact h.paste text
    | none => exact ⟨s, rfl, h⟩

end Keys
end ReplInput

/-! Runs of keys. -/

/-- The pane has not panicked, its cursor is a position in the input, and it can be painted. -/
def Sound (s : Option ReplInput) : Prop :=
  ∃ t, s = some t ∧ t.cursorByte ≤ byteLen t.input ∧
    isCharBoundary t.input t.cursorByte = true ∧ t.caret.isSome = true

theorem ReplInput.Valid.sound {s : ReplInput} (h : s.Valid) : Sound (some s) :=
  ⟨s, rfl, h.cursor_le, h.cursor, h.caret⟩

/-- The state behind the first `n` keys. -/
abbrev replAt (keys : List ReplKey) (n : Nat) : Option ReplInput :=
  stateAt replStep (some ReplInput.new) keys n

/-- The cursor is valid behind every key of the run. -/
def CursorValid (keys : List ReplKey) : Prop := ∀ n, Sound (replAt keys n)

/-- Each word-left stops at the first character of the word to the left, or at the start of the input
when there is none. -/
def WordLeftStops (keys : List ReplKey) : Prop :=
  ∀ n s t, keys[n]? = some (.left true) → replAt keys n = some s → replAt keys (n + 1) = some t →
    t.cursorByte = s.wordStart

/-- What a key must meet to keep a valid cursor valid. -/
def Lands (s : Option ReplInput) (k : ReplKey) : Prop :=
  k = .left true → ∀ t, s = some t → isCharBoundary t.wordToLeft t.lastSize = true

theorem replStep_keeps {s : Option ReplInput} {k : ReplKey} (h : ReplInput.Keeps s) :
    ReplInput.Keeps (replStep s k) ↔ Lands s k := by
  obtain ⟨t, rfl, hValid⟩ := h
  by_cases hk : k = .left true
  · subst hk
    show ReplInput.Keeps t.moveWordLeft ↔ _
    rw [hValid.moveWordLeft_iff]
    constructor
    · rintro hLands - t' ht
      obtain rfl := Option.some.inj ht
      exact hLands
    · intro hLands
      exact hLands rfl t rfl
  · exact ⟨fun _ hLeft => absurd hLeft hk, fun _ => hValid.key hk⟩

/-- The whole state stays valid as long as the cursor does. -/
theorem keeps_of_cursorValid {keys : List ReplKey} (h : CursorValid keys) (n : Nat) :
    ReplInput.Keeps (replAt keys n) := by
  induction n with
  | zero => exact ⟨_, rfl, ReplInput.new_valid⟩
  | succ n ih =>
    obtain ⟨s, hs, hValid⟩ := ih
    cases hk : keys[n]? with
    | none => exact ⟨s, by rw [replAt, stateAt_end _ _ hk]; exact hs, hValid⟩
    | some k =>
      have hStep : replAt keys (n + 1) = replStep (replAt keys n) k := stateAt_succ _ _ hk
      rw [hStep, replStep_keeps ⟨s, hs, hValid⟩]
      rintro rfl t ht
      obtain ⟨t', ht', -, hBoundary, -⟩ := h (n + 1)
      obtain rfl := Option.some.inj (hs.symm.trans ht)
      rw [hStep, hs] at ht'
      have hMoved : s.moveWordLeft = some t' := ht'
      rw [ReplInput.moveWordLeft_eq hValid] at hMoved
      obtain rfl := Option.some.inj hMoved
      rw [← ReplInput.lands_iff hValid]
      exact hBoundary

/-- The cursor is valid behind every key exactly when each word-left stands behind a word that has a
boundary at the size of its last character. -/
theorem cursorValid_iff (keys : List ReplKey) :
    CursorValid keys ↔ ∀ n k, keys[n]? = some k → Lands (replAt keys n) k := by
  have hStep : ∀ s k, ReplInput.Keeps s → (ReplInput.Keeps (replStep s k) ↔ Lands s k) :=
    fun _ _ h => replStep_keeps h
  have hStart : ReplInput.Keeps (some ReplInput.new) := ⟨_, rfl, ReplInput.new_valid⟩
  have hRun := run_iff hStep hStart keys
  rw [← hRun]
  constructor
  · exact keeps_of_cursorValid
  · intro h n
    obtain ⟨s, hs, hValid⟩ := h n
    have hSound := hValid.sound
    rwa [← hs] at hSound

/-- Along every run of keys: the cursor is a valid position throughout and word-left stops at the word
to the left exactly when word-left is only pressed where no word is to the left; and the first of the
two alone holds exactly when each word-left lands on a boundary of the word it goes back over. -/
theorem replInput_cursor (keys : List ReplKey) :
    (CursorValid keys ∧ WordLeftStops keys ↔
      ∀ n s, keys[n]? = some (.left true) → replAt keys n = some s → s.wordToLeft = []) ∧
    (CursorValid keys ↔
      ∀ n s, keys[n]? = some (.left true) → replAt keys n = some s →
        isCharBoundary s.wordToLeft s.lastSize = true) := by
  have hLands : CursorValid keys ↔
      ∀ n s, keys[n]? = some (.left true) → replAt keys n = some s →
        isCharBoundary s.wordToLeft s.lastSize = true := by
    rw [cursorValid_iff]
    constructor
    · intro h n s hk hs
      exact h n _ hk rfl s hs
    · rintro h n k hk rfl t ht
      exact h n t hk ht
  -- where the cursor stays valid, the place of a word-left is the start of the word and one on
  have hMoved : CursorValid keys → ∀ n s, keys[n]? = some (.left true) → replAt keys n = some s →
      replAt keys (n + 1) = some { s with cursorByte := s.wordStart + s.lastSize } := by
    intro h n s hk hs
    obtain ⟨s', hs', hValid⟩ := keeps_of_cursorValid h n
    obtain rfl := Option.some.inj (hs.symm.trans hs')
    have hStep : replAt keys (n + 1) = replStep (replAt keys n) (.left true) := stateAt_succ _ _ hk
    rw [hStep, hs]
    exact ReplInput.moveWordLeft_eq hValid
  refine ⟨⟨?_, ?_⟩, hLands⟩
  · rintro ⟨hCursor, hStops⟩ n s hk hs
    exact ReplInput.stops_iff.mp (hStops n s _ hk hs (hMoved hCursor n s hk hs))
  · intro hNone
    have hCursor : CursorValid keys := by
      rw [hLands]
      intro n s hk hs
      rw [ReplInput.lastSize, hNone n s hk hs]
      rfl
    refine ⟨hCursor, ?_⟩
    intro n s t hk hs ht
    obtain rfl := Option.some.inj ((hMoved hCursor n s hk hs).symm.trans ht)
    exact ReplInput.stops_iff.mpr (hNone n s hk hs)

/-- `aé` and word-left: the cursor is in the middle of the second character, and the next key that
inserts is a panic. -/
theorem replInput_not_valid :
    ¬ CursorValid [.char 0x61, .char 0xE9, .left true] ∧
      replAt [.char 0x61, .char 0xE9, .left true, .char 0x62] 4 = none := by
  constructor
  · intro h
    obtain ⟨t, ht, -, hBoundary, -⟩ := h 3
    have hState : (replAt [.char 0x61, .char 0xE9, .left true] 3).map
        (fun t => isCharBoundary t.input t.cursorByte) = some false := by
      decide +kernel
    rw [ht, Option.map_some, hBoundary] at hState
    cases hState
  · decide +kernel

end FactorForth.Gui
