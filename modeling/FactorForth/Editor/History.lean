import FactorForth.Library.Runs
import FactorForth.Editor.Edits

/-! The history of the editor over whole runs of commands: every record fits the text that it will be
undone or redone on, as long as no text of no code points is put over a selection. -/

namespace FactorForth.Editor
open FactorForth.Library

namespace EditorState
variable {s t : EditorState}

/-! Motions. -/

/-- The state but for the cursor, its anchor and what goes with them. -/
structure Still (s t : EditorState) : Prop where
  buffer : t.buffer = s.buffer
  undo : t.undo = s.undo
  redo : t.redo = s.redo
  cursor_le : t.cursor ≤ t.buffer.length
  anchor_le : t.anchor ≤ t.buffer.length

theorem Still.refl (h : s.Sound) : Still s s := ⟨rfl, rfl, rfl, h.cursor_le, h.anchor_le⟩

theorem Still.withPrefCol (h : Still s t) (col : Nat) : Still s (t.withPrefCol col) :=
  ⟨h.buffer, h.undo, h.redo, h.cursor_le, h.anchor_le⟩

theorem Still.rememberCol (h : Still s t) : Still s t.rememberCol := h.withPrefCol t.cursorCol

theorem Still.ite {u : EditorState} {p : Prop} [Decidable p] (ht : Still s t) (hu : Still s u) :
    Still s (if p then t else u) := by
  split
  · exact ht
  · exact hu

theorem setCursorOffset_still (h : s.Sound) (offset : Nat) (extend : Bool) :
    Still s (s.setCursorOffset offset extend) := by
  refine ⟨rfl, rfl, rfl, Nat.min_le_right _ _, ?_⟩
  cases extend with
  | true => exact h.anchor_le
  | false => exact Nat.min_le_right _ _

theorem setCursorRc_still (h : s.Sound) (row col : Nat) (extend : Bool) :
    Still s (s.setCursorRc row col extend) := setCursorOffset_still h _ extend

theorem nthNewlinePosRaw_lt {text : List UInt32} {n pos : Nat}
    (h : nthNewlinePosRaw text n = some pos) : pos < text.length := by
  induction text generalizing n pos with
  | nil => cases h
  | cons cp rest ih =>
    rw [List.length_cons]
    unfold nthNewlinePosRaw at h
    split at h
    · cases n with
      | zero =>
        obtain rfl := Option.some.inj h
        exact Nat.succ_pos _
      | succ n =>
        obtain ⟨p, hp, rfl⟩ := Option.map_eq_some_iff.mp h
        exact Nat.succ_lt_succ (ih hp)
    · obtain ⟨p, hp, rfl⟩ := Option.map_eq_some_iff.mp h
      exact Nat.succ_lt_succ (ih hp)

theorem nthNewlinePos_le {text : List UInt32} {n pos : Nat} (h : nthNewlinePos text n = some pos) :
    pos ≤ text.length := by
  obtain ⟨p, hp, rfl⟩ := Option.map_eq_some_iff.mp h
  exact nthNewlinePosRaw_lt hp

theorem lineRange_bounds {text : List UInt32} {line lo hi : Nat}
    (h : lineRange text line = some (lo, hi)) :
    lineStart text line = some lo ∧ lo ≤ text.length ∧ hi ≤ text.length := by
  unfold lineRange at h
  split at h
  · cases h
  · rename_i hLine
    obtain ⟨start, hStart, hEq⟩ := Option.map_eq_some_iff.mp h
    obtain ⟨rfl, rfl⟩ := Prod.mk.inj hEq
    have hHi : (if line + 1 < lineCount text then (nthNewlinePosRaw text line).getD text.length
        else text.length) ≤ text.length := by
      split
      · cases hPos : nthNewlinePosRaw text line with
        | none => exact Nat.le_refl _
        | some pos => exact Nat.le_of_lt (nthNewlinePosRaw_lt hPos)
      · exact Nat.le_refl _
    unfold lineStart
    split at hStart
    · rename_i hZero
      obtain rfl := Option.some.inj hStart
      exact ⟨if_pos hZero, Nat.zero_le _, hHi⟩
    · rename_i hZero
      exact ⟨by rw [if_neg hZero, if_neg hLine, hStart], nthNewlinePos_le hStart, hHi⟩

theorem lineStart_le {text : List UInt32} {line start : Nat} (h : lineStart text line = some start) :
    start ≤ text.length := by
  unfold lineStart at h
  split at h
  · obtain rfl := Option.some.inj h
    exact Nat.zero_le _
  · split at h
    · cases h
    · exact nthNewlinePos_le h

theorem lineColToOffset_le (text : List UInt32) (line col : Nat) :
    lineColToOffset text line col ≤ text.length := by
  unfold lineColToOffset
  dsimp only
  split
  · rename_i lo hi hRange
    obtain ⟨hStart, hLo, hHi⟩ := lineRange_bounds hRange
    rw [hStart, Option.getD_some]
    have hCol : min col (hi - lo) ≤ hi - lo := Nat.min_le_right _ _
    omega
  · cases hStart : lineStart text line with
    | none => exact Nat.le_refl _
    | some start => exact lineStart_le hStart

theorem dragTo_still (h : s.Sound) (row col : Nat) : Still s (s.dragTo row col) := by
  have hStill : Still s { s with
      cursor := lineColToOffset s.buffer row (min col (lineLenCps s.buffer row)), coalesce := none } :=
    ⟨rfl, rfl, rfl, lineColToOffset_le _ _ _, h.anchor_le⟩
  exact hStill.rememberCol

theorem selectAll_still (s : EditorState) : Still s s.selectAll := by
  have hStill : Still s { s with anchor := 0, cursor := s.buffer.length, coalesce := none } :=
    ⟨rfl, rfl, rfl, Nat.le_refl _, Nat.zero_le _⟩
  exact hStill.rememberCol

theorem moveLeft_still (h : s.Sound) (extend : Bool) : Still s (s.moveLeft extend) := by
  unfold moveLeft
  split
  · exact (setCursorOffset_still h _ _).rememberCol
  · exact (Still.ite (setCursorOffset_still h _ _) (.refl h)).rememberCol

theorem moveRight_still (h : s.Sound) (extend : Bool) : Still s (s.moveRight extend) := by
  unfold moveRight
  split
  · exact (setCursorOffset_still h _ _).rememberCol
  · exact (Still.ite (setCursorOffset_still h _ _) (.refl h)).rememberCol

theorem handleKey_still (h : s.Sound) (d : Desktop) {k : Key} (hKey : k ≠ .delete) :
    Still s (s.handleKey d k) := by
  cases k with
  | left => exact .ite (setCursorOffset_still h _ _).rememberCol (moveLeft_still h _)
  | right => exact .ite (setCursorOffset_still h _ _).rememberCol (moveRight_still h _)
  | up => exact .ite (.refl h) ((setCursorRc_still h _ _ _).withPrefCol _)
  | down => exact .ite (.refl h) ((setCursorRc_still h _ _ _).withPrefCol _)
  | home => exact (setCursorRc_still h _ _ _).withPrefCol _
  | end_ => exact (setCursorRc_still h _ _ _).rememberCol
  | prior => exact (setCursorRc_still h _ _ _).withPrefCol _
  | next => exact (setCursorRc_still h _ _ _).withPrefCol _
  | delete => exact absurd rfl hKey
  | f8 =>
    rw [EditorState.handleKey]
    split
    · exact (setCursorRc_still h _ _ _).rememberCol
    · exact .refl h
  | other => exact .refl h

/-! Undo and redo. -/

/-- Undoing a record on the text that it left gives the text and the cursor that it was made from. -/
theorem revert_eq {e : Entry} (hFits : e.Fits) (hNow : e.after.text = s.buffer) :
    s.revert e.op = ({ s with buffer := e.before.text }, e.before.cursor) := by
  obtain ⟨left, right, hStart, hFrom, hTo⟩ := hFits.texts
  rw [hFrom, ← hFits.before]
  rw [hNow] at hTo
  cases hOp : e.op with
  | inserted start text cursorBefore cursorAfter =>
    rw [hOp] at hStart hTo
    have hOut : s.spliceOut start (start + text.length) = (text, { s with buffer := left ++ right }) :=
      spliceOut_at hTo hStart rfl
    simp only [revert, hOut, UndoOp.removedText, UndoOp.cursorBefore, List.append_nil]
  | deleted start text cursorBefore cursorAfter =>
    rw [hOp] at hStart
    rw [hOp, UndoOp.insertedText, List.append_nil] at hTo
    have hIn : s.spliceInCps start text = { s with buffer := left ++ text ++ right } :=
      spliceInCps_at hTo hStart text
    simp only [revert, hIn, UndoOp.removedText, UndoOp.cursorBefore]
  | replaced start removed new cursorBefore cursorAfter =>
    rw [hOp] at hStart hTo
    have hOut : s.spliceOut start (start + new.length) = (new, { s with buffer := left ++ right }) :=
      spliceOut_at hTo hStart rfl
    have hIn : ({ s with buffer := left ++ right } : EditorState).spliceInCps start removed = _ :=
      spliceInCps_at rfl hStart removed
    simp only [revert, hOut, hIn, UndoOp.removedText, UndoOp.cursorBefore]

/-- Redoing a record on the text that it was made from gives the text and the cursor that it left. -/
theorem reapply_eq {e : Entry} (hFits : e.Fits) (hNow : e.before.text = s.buffer) :
    s.reapply e.op = ({ s with buffer := e.after.text }, e.after.cursor) := by
  obtain ⟨left, right, hStart, hFrom, hTo⟩ := hFits.texts
  rw [hTo, ← hFits.after]
  rw [hNow] at hFrom
  cases hOp : e.op with
  | inserted start text cursorBefore cursorAfter =>
    rw [hOp] at hStart
    rw [hOp, UndoOp.removedText, List.append_nil] at hFrom
    have hIn : s.spliceInCps start text = { s with buffer := left ++ text ++ right } :=
      spliceInCps_at hFrom hStart text
    simp only [reapply, hIn, UndoOp.insertedText, UndoOp.cursorAfter]
  | deleted start text cursorBefore cursorAfter =>
    rw [hOp] at hStart hFrom
    have hOut : s.spliceOut start (start + text.length) = (text, { s with buffer := left ++ right }) :=
      spliceOut_at hFrom hStart rfl
    simp only [reapply, hOut, UndoOp.insertedText, UndoOp.cursorAfter, List.append_nil]
  | replaced start removed new cursorBefore cursorAfter =>
    rw [hOp] at hStart hFrom
    have hOut : s.spliceOut start (start + removed.length) =
        (removed, { s with buffer := left ++ right }) := spliceOut_at hFrom hStart rfl
    have hIn : ({ s with buffer := left ++ right } : EditorState).spliceInCps start new = _ :=
      spliceInCps_at rfl hStart new
    simp only [reapply, hOut, hIn, UndoOp.insertedText, UndoOp.cursorAfter]

theorem undoLast_eq (h : s.Sound) {e : Entry} {rest : List Entry} (hUndo : s.undo = e :: rest) :
    s.undoLast = { ({ s with buffer := e.before.text } : EditorState).place e.before.cursor with
      coalesce := none, undo := rest, redo := e :: s.redo } := by
  have hFits := h.fits e (hUndo ▸ List.mem_cons_self)
  have hRevert := revert_eq hFits (h.last_left hUndo)
  simp only [undoLast, hUndo, hRevert]

theorem redoLast_eq (h : s.Linear) {e : Entry} {rest : List Entry} (hRedo : s.redo = e :: rest) :
    s.redoLast = { ({ s with buffer := e.after.text } : EditorState).place e.after.cursor with
      coalesce := none, undo := e :: s.undo, redo := rest } := by
  have hFits := h.redo_fits e (hRedo ▸ List.mem_cons_self)
  have hReapply := reapply_eq hFits (h.next_from hRedo)
  simp only [redoLast, hRedo, hReapply]

theorem undoLast_linear (h : s.Linear) : s.undoLast.Linear := by
  cases hUndo : s.undo with
  | nil =>
    simp only [undoLast, hUndo]
    exact h
  | cons e rest =>
    rw [undoLast_eq h.toSound hUndo]
    have hFits := h.fits e (hUndo ▸ List.mem_cons_self)
    have hPast := h.past
    rw [hUndo] at hPast
    obtain ⟨hBack, hAhead⟩ := hPast.back h.future
    exact {
      cursor_le := hFits.inside_before
      anchor_le := hFits.inside_before
      fits := fun e' hMem => h.fits e' (hUndo ▸ List.mem_cons_of_mem e hMem)
      past := hBack
      redo_fits := List.forall_mem_cons.mpr ⟨hFits, h.redo_fits⟩
      future := hAhead }

theorem redoLast_linear (h : s.Linear) : s.redoLast.Linear := by
  cases hRedo : s.redo with
  | nil =>
    simp only [redoLast, hRedo]
    exact h
  | cons e rest =>
    rw [redoLast_eq h hRedo]
    have hFits := h.redo_fits e (hRedo ▸ List.mem_cons_self)
    have hFuture := h.future
    rw [hRedo] at hFuture
    obtain ⟨hAhead, hBack⟩ := hFuture.back h.past
    exact {
      cursor_le := hFits.inside_after
      anchor_le := hFits.inside_after
      fits := List.forall_mem_cons.mpr ⟨hFits, h.fits⟩
      past := hBack
      redo_fits := fun e' hMem => h.redo_fits e' (hRedo ▸ List.mem_cons_of_mem e hMem)
      future := hAhead }

/-! Commands. -/

/-- A step that does nothing to the history, or is an edit in it. -/
def Ordinary (s t : EditorState) : Prop := Still s t ∨ Edited s t

theorem Still.sound (h : s.Sound) (hStill : Still s t) : t.Sound where
  cursor_le := hStill.cursor_le
  anchor_le := hStill.anchor_le
  fits := hStill.undo ▸ h.fits
  past := by
    rw [hStill.undo, hStill.buffer]
    exact h.past

theorem Ordinary.linear (h : s.Linear) (hStep : Ordinary s t) : t.Linear := by
  rcases hStep with hStill | hEdited
  · exact {
      toSound := hStill.sound h.toSound
      redo_fits := hStill.redo ▸ h.redo_fits
      future := by
        rw [hStill.redo, hStill.buffer]
        exact h.future }
  · exact hEdited.sound.linear hEdited.redo

theorem Ordinary.of_unchanged (h : s.Sound) (hStep : t = s ∨ Edited s t) : Ordinary s t := by
  rcases hStep with rfl | hEdited
  · exact .inl (.refl h)
  · exact .inr hEdited

theorem Ordinary.ite {u : EditorState} {p : Prop} [Decidable p] (ht : p → Ordinary s t)
    (hu : ¬ p → Ordinary s u) : Ordinary s (if p then t else u) := by
  split
  · rename_i hp
    exact ht hp
  · rename_i hp
    exact hu hp

/-- The text `text` would only take a selection away, and edits that were undone could still be
redone. -/
def LosesPlace (s : EditorState) (text : List Char) : Prop :=
  s.selectionRange ≠ none ∧ s.redo ≠ [] ∧ codepointsOf text = []

theorem doInsert_ordinary (h : s.Sound) {text : List Char} (coalesce : Option CoalesceKind)
    (hOk : ¬ s.LosesPlace text) : Ordinary s (s.doInsert text coalesce) := by
  by_cases hSome : codepointsOf text = []
  · have hEmpty : (codepointsOf text).isEmpty = true := by simpa using hSome
    simp only [doInsert, hEmpty, if_true]
    cases hDelete : s.deleteSelectionToUndo with
    | none => exact .inl (.refl h)
    | some t =>
      obtain ⟨hSound, hPushed, -⟩ := deleteSelection_some h hDelete
      have hSelection : s.selectionRange ≠ none := by
        intro hNone
        rw [deleteSelectionToUndo, hNone] at hDelete
        cases hDelete
      have hRedo : s.redo = [] := by
        by_contra hRedo
        exact hOk ⟨hSelection, hRedo, hSome⟩
      have hKept : t.redo = s.redo := deleteSelection_redo hDelete
      exact .inr ⟨hSound, .pushed hPushed, hKept.trans hRedo⟩
  · exact .inr (doInsert_edited h text coalesce hSome)

/-- The text that a command puts in at the cursor as it was typed or is on the clipboard. -/
def given (d : Desktop) : Command → Option (List Char)
  | .char c => if c.toNat = 0x16 then d.clipboard else some [c]
  | .menu .paste => d.clipboard
  | _ => none

/-- The command puts text of no code points over a selection while edits can be redone. -/
def Slips (s : EditorState) (input : Desktop × Command) : Prop :=
  ∃ text, given input.1 input.2 = some text ∧ text ≠ [] ∧ s.LosesPlace text

theorem paste_ordinary (h : s.Sound) {clipboard : Option (List Char)}
    (hOk : ∀ text, clipboard = some text → text ≠ [] → ¬ s.LosesPlace text) :
    Ordinary s (s.paste clipboard) := by
  cases clipboard with
  | none => exact .inl (.refl h)
  | some text =>
    unfold paste
    dsimp only
    split
    · exact .inl (.refl h)
    · rename_i hSome
      exact doInsert_ordinary h none (hOk text rfl (by simpa using hSome))

end EditorState

/-- Undo and redo, by key or by menu. -/
def Command.isHistory : Command → Bool
  | .char c => c.toNat = 0x19 || c.toNat = 0x1A
  | .menu .undo | .menu .redo => true
  | _ => false

namespace EditorState
variable {s t : EditorState}

theorem handleChar_ordinary (h : s.Sound) {d : Desktop} {c : Char}
    (hHistory : (Command.char c).isHistory = false) (hOk : ¬ s.Slips (d, .char c)) :
    Ordinary s (s.handleChar d c) := by
  have hStill : Ordinary s s := .inl (.refl h)
  obtain ⟨hRedo, hUndo⟩ : c.toNat ≠ 0x19 ∧ c.toNat ≠ 0x1A := by
    simpa [Command.isHistory] using hHistory
  have hPaste : c.toNat = 0x16 → Ordinary s (s.paste d.clipboard) := by
    intro hCode
    apply paste_ordinary h
    intro text hText hSome hLoses
    exact hOk ⟨text, by rw [given, if_pos hCode, hText], hSome, hLoses⟩
  have hTyped : c.toNat ≠ 0x16 → Ordinary s (s.insertChar c) := by
    intro hCode
    apply doInsert_ordinary h
    intro hLoses
    exact hOk ⟨[c], by rw [given, if_neg hCode], List.cons_ne_nil _ _, hLoses⟩
  -- The shortcuts come first, then the keys that edit, and the rest is typed.
  refine .ite (fun _ => .inl (selectAll_still s)) fun _ => .ite (fun _ => hStill) fun _ =>
    .ite (fun _ => hStill) fun _ => .ite (fun _ => hStill) fun _ => .ite hPaste fun hCode =>
    .ite (fun _ => hStill) fun _ => .ite (fun _ => .of_unchanged h (cut_edited h _)) fun _ => ?_
  refine .ite (fun hCtrlY => absurd hCtrlY hRedo) fun _ => .ite (fun hCtrlZ => absurd hCtrlZ hUndo)
    fun _ => .ite (fun _ => .inr (insertNewline_edited h)) fun _ => ?_
  exact .ite (fun _ => hStill) fun _ => .ite (fun _ => .inr (insertTab_edited h)) fun _ =>
    .ite (fun _ => .of_unchanged h (backspace_edited h)) fun _ => .ite (fun _ => hStill) fun _ =>
    hTyped hCode

theorem step_ordinary (h : s.Sound) {d : Desktop} {c : Command} (hHistory : c.isHistory = false)
    (hOk : ¬ s.Slips (d, c)) : Ordinary s (s.step (d, c)) := by
  cases c with
  | char c => exact handleChar_ordinary h hHistory hOk
  | key k =>
    by_cases hDelete : k = .delete
    · subst hDelete
      show Ordinary s (if _ then _ else _)
      split
      · exact .of_unchanged h (cut_edited h _)
      · exact .of_unchanged h (deleteForward_edited h)
    · exact .inl (handleKey_still h d hDelete)
  | menu item =>
    cases item with
    | undo => cases hHistory
    | redo => cases hHistory
    | cut => exact .of_unchanged h (cut_edited h _)
    | paste =>
      apply paste_ordinary h
      intro text hText hSome hLoses
      exact hOk ⟨text, hText, hSome, hLoses⟩
    | selectAll => exact .inl (selectAll_still s)
    | nextWord => exact .inl (setCursorOffset_still h _ _).rememberCol
    | prevWord => exact .inl (setCursorOffset_still h _ _).rememberCol
    | other => exact .inl (.refl h)
  | click row col => exact .inl (setCursorRc_still h _ _ _).rememberCol
  | drag row col => exact .inl (dragTo_still h _ _)

theorem step_linear (h : s.Linear) {d : Desktop} {c : Command} (hOk : ¬ s.Slips (d, c)) :
    (s.step (d, c)).Linear := by
  cases hHistory : c.isHistory with
  | false => exact (step_ordinary h.toSound hHistory hOk).linear h
  | true =>
    cases c with
    | char c =>
      have hKey : c.toNat = 0x19 ∨ c.toNat = 0x1A := by simpa [Command.isHistory] using hHistory
      rcases hKey with hRedo | hUndo
      · have hStep : s.step (d, .char c) = s.redoLast := by simp [step, handleChar, hRedo]
        rw [hStep]
        exact redoLast_linear h
      · have hStep : s.step (d, .char c) = s.undoLast := by simp [step, handleChar, hUndo]
        rw [hStep]
        exact undoLast_linear h
    | menu item =>
      cases item with
      | undo => exact undoLast_linear h
      | redo => exact redoLast_linear h
      | _ => cases hHistory
    | _ => cases hHistory

theorem loadFrom_linear (utf8 : List UInt8) : (loadFrom utf8).Linear where
  cursor_le := Nat.zero_le _
  anchor_le := Nat.zero_le _
  fits := by simp [loadFrom]
  past := chained_nil _
  redo_fits := by simp [loadFrom]
  future := chained_nil _

/-- What holds of the history in a state. -/
structure Invertible (s : EditorState) : Prop where
  cursor_le : s.cursor ≤ s.buffer.length
  anchor_le : s.anchor ≤ s.buffer.length
  /-- Undo takes back the last edit, whose record ends in the text as it is. -/
  undo : ∀ e rest, s.undo = e :: rest →
    e.after.text = s.buffer ∧ s.undoLast.moment = e.before ∧ s.undoLast.undo = rest
  /-- A redo right after it gives the text and the history back, and the cursor of the edit. -/
  redo_undo : ∀ e rest, s.undo = e :: rest →
    s.undoLast.redoLast.buffer = s.buffer ∧ s.undoLast.redoLast.cursor = e.after.cursor ∧
      s.undoLast.redoLast.undo = s.undo ∧ s.undoLast.redoLast.redo = s.redo
  /-- The next edit to be redone was made from the text as it is. -/
  redo : ∀ e rest, s.redo = e :: rest →
    e.before.text = s.buffer ∧ s.redoLast.moment = e.after ∧ s.redoLast.redo = rest
  /-- Every other command that changes the text is recorded, and leaves nothing to redo. -/
  edit : ∀ d c, c.isHistory = false → ¬ s.Slips (d, c) → (s.step (d, c)).buffer ≠ s.buffer →
    Recorded s (s.step (d, c)) ∧ (s.step (d, c)).redo = []

theorem Linear.invertible (h : s.Linear) : Invertible s where
  cursor_le := h.cursor_le
  anchor_le := h.anchor_le
  undo e rest hUndo := by
    rw [undoLast_eq h.toSound hUndo]
    exact ⟨h.last_left hUndo, rfl, rfl⟩
  redo_undo e rest hUndo := by
    have hEq := undoLast_eq h.toSound hUndo
    have hRedo : s.undoLast.redo = e :: s.redo := by rw [hEq]
    rw [redoLast_eq (undoLast_linear h) hRedo]
    refine ⟨h.last_left hUndo, rfl, ?_, rfl⟩
    show e :: s.undoLast.undo = s.undo
    rw [hEq, hUndo]
  redo e rest hRedo := by
    rw [redoLast_eq h hRedo]
    exact ⟨h.next_from hRedo, rfl, rfl⟩
  edit d c hHistory hOk hChanged := by
    rcases step_ordinary h.toSound hHistory hOk with hStill | hEdited
    · exact absurd hStill.buffer hChanged
    · exact ⟨hEdited.recorded, hEdited.redo⟩

/-- The history is linear and can be gone through in both directions, in every run in which no text of
no code points is put over a selection while edits can be redone. -/
theorem history_invertible (file : List UInt8) (inputs : List (Desktop × Command))
    (hOk : ∀ n i, inputs[n]? = some i → ¬ (stateAt step (loadFrom file) inputs n).Slips i) (n : Nat) :
    (stateAt step (loadFrom file) inputs n).Invertible := by
  have hStep : ∀ (s : EditorState) i, s.Linear → ¬ s.Slips i → (s.step i).Linear :=
    fun _ _ h hOk => step_linear h hOk
  exact (run_keeps hStep (loadFrom_linear file) hOk n).invertible

/-- Typing into a file of one letter, undone and redone. -/
theorem history_invertible_typed :
    (stateAt step (loadFrom [0x61])
      [(⟨false, false, none, true, 1, none⟩, .char 'b'),
        (⟨false, false, none, true, 1, none⟩, .menu .undo),
        (⟨false, false, none, true, 1, none⟩, .menu .redo)] 3).Invertible := by
  apply history_invertible
  intro n i hi hSlips
  obtain ⟨text, hText, -, hSelection, hRedo, -⟩ := hSlips
  match n with
  | 0 => exact hRedo rfl
  | 1 => 
    obtain rfl := Option.some.inj hi
    cases hText
  | 2 =>
    obtain rfl := Option.some.inj hi
    cases hText
  | n + 3 => cases hi

/-- A letter typed and the cursor sent home: undo and redo leave it behind the letter. And a letter
typed before another and undone, everything selected and a byte order mark pasted: the text is gone,
and the redo of the letter is still there, on another text than its own. -/
theorem history_not_exact :
    (stateAt step (loadFrom [])
        [(⟨false, false, none, true, 1, none⟩, .char 'a'),
          (⟨false, false, none, true, 1, none⟩, .key .home)] 2).cursor = 0 ∧
      (stateAt step (loadFrom [])
        [(⟨false, false, none, true, 1, none⟩, .char 'a'),
          (⟨false, false, none, true, 1, none⟩, .key .home),
          (⟨false, false, none, true, 1, none⟩, .menu .undo),
          (⟨false, false, none, true, 1, none⟩, .menu .redo)] 4).cursor = 1 ∧
      (stateAt step (loadFrom [0x61])
        [(⟨false, false, none, true, 1, none⟩, .char 'b'),
          (⟨false, false, none, true, 1, none⟩, .menu .undo),
          (⟨false, false, none, true, 1, none⟩, .menu .selectAll),
          (⟨false, false, some ['\ufeff'], true, 1, none⟩, .menu .paste)] 4).buffer = [] ∧
      ((stateAt step (loadFrom [0x61])
        [(⟨false, false, none, true, 1, none⟩, .char 'b'),
          (⟨false, false, none, true, 1, none⟩, .menu .undo),
          (⟨false, false, none, true, 1, none⟩, .menu .selectAll),
          (⟨false, false, some ['\ufeff'], true, 1, none⟩, .menu .paste)] 4).redo.map
        fun e => e.before.text) = [[0x61]] := by
  decide +kernel

end EditorState
end FactorForth.Editor
