import FactorForth.Library.History
import FactorForth.Editor.Commands

/-! What the edits of the editor do to text and history: each is recorded, alone or in the record of
the edit before, by a record that fits the texts around it. -/

namespace FactorForth.Editor
open FactorForth.Library

/-! Positions of the plain list. -/

section Positions
variable (left mid right new : List UInt32)

theorem listInsert_at : listInsert (left ++ right) left.length new = left ++ new ++ right := by
  rw [listInsert, take_min_length, drop_min_length, List.take_left, List.drop_left]

theorem listDelete_at :
    listDelete (left ++ mid ++ right) left.length mid.length = left ++ right := by
  rw [listDelete, take_min_length, drop_min_length, ← List.length_append, List.drop_left,
    List.append_assoc, List.take_left]

theorem listSlice_at :
    listSlice (left ++ mid ++ right) left.length (left.length + mid.length) = mid := by
  have hLeft : left.length ≤ (left ++ mid ++ right).length := by simp
  rw [listSlice, take_min_length, Nat.min_eq_left hLeft, ← List.length_append, List.take_left,
    List.drop_left]

end Positions

/-- A text cut at one position. -/
theorem exists_split {text : List UInt32} {pos : Nat} (h : pos ≤ text.length) :
    ∃ left right, text = left ++ right ∧ left.length = pos :=
  ⟨text.take pos, text.drop pos, (List.take_append_drop pos text).symm, List.length_take_of_le h⟩

/-- A text cut at two positions. -/
theorem exists_cut {text : List UInt32} {lo hi : Nat} (hLo : lo ≤ hi) (hHi : hi ≤ text.length) :
    ∃ left mid right, text = left ++ mid ++ right ∧ left.length = lo ∧ lo + mid.length = hi := by
  obtain ⟨front, right, rfl, hFront⟩ := exists_split hHi
  obtain ⟨left, mid, rfl, hLeft⟩ := exists_split (hFront ▸ hLo)
  refine ⟨left, mid, right, rfl, hLeft, ?_⟩
  rw [← hFront, List.length_append, hLeft]

/-! Records. -/

namespace UndoOp

def start : UndoOp → Nat
  | inserted start _ _ _ => start
  | deleted start _ _ _ => start
  | replaced start _ _ _ _ => start

/-- The text that the edit took away. -/
def removedText : UndoOp → List UInt32
  | inserted _ _ _ _ => []
  | deleted _ text _ _ => text
  | replaced _ removed _ _ _ => removed

/-- The text that the edit put in its place. -/
def insertedText : UndoOp → List UInt32
  | inserted _ text _ _ => text
  | deleted _ _ _ _ => []
  | replaced _ _ new _ _ => new

def cursorBefore : UndoOp → Nat
  | inserted _ _ cursorBefore _ => cursorBefore
  | deleted _ _ cursorBefore _ => cursorBefore
  | replaced _ _ _ cursorBefore _ => cursorBefore

def cursorAfter : UndoOp → Nat
  | inserted _ _ _ cursorAfter => cursorAfter
  | deleted _ _ _ cursorAfter => cursorAfter
  | replaced _ _ _ _ cursorAfter => cursorAfter

end UndoOp

def Moment.Inside (m : Moment) : Prop := m.cursor ≤ m.text.length

/-- The record says what the edit did to the text and to the cursor. -/
structure Entry.Fits (e : Entry) : Prop where
  texts : ∃ left right, left.length = e.op.start ∧
    e.before.text = left ++ e.op.removedText ++ right ∧
    e.after.text = left ++ e.op.insertedText ++ right
  before : e.op.cursorBefore = e.before.cursor
  after : e.op.cursorAfter = e.after.cursor
  inside_before : e.before.Inside
  inside_after : e.after.Inside

namespace EditorState
variable {s t : EditorState}

/-! What the small steps do. -/

theorem spliceInCps_eq (s : EditorState) (offset : Nat) (text : List UInt32) :
    s.spliceInCps offset text = { s with buffer := listInsert s.buffer offset text } := by
  unfold spliceInCps
  split
  · rename_i hEmpty
    rw [List.isEmpty_iff.mp hEmpty, listInsert, List.append_nil, List.take_append_drop]
  · rfl

theorem spliceInCps_at {left right : List UInt32} {offset : Nat} (hBuffer : s.buffer = left ++ right)
    (hOffset : left.length = offset) (text : List UInt32) :
    s.spliceInCps offset text = { s with buffer := left ++ text ++ right } := by
  rw [spliceInCps_eq, hBuffer, ← hOffset, listInsert_at]

theorem spliceOut_at {left mid right : List UInt32} {lo hi : Nat}
    (hBuffer : s.buffer = left ++ mid ++ right) (hLo : left.length = lo) (hHi : lo + mid.length = hi) :
    s.spliceOut lo hi = (mid, { s with buffer := left ++ right }) := by
  subst hHi
  unfold spliceOut
  split
  · have hMid : mid = [] := List.length_eq_zero_iff.mp (by omega)
    subst hMid
    rw [List.append_nil] at hBuffer
    rw [← hBuffer]
  · rw [Nat.add_sub_cancel_left, hBuffer, ← hLo, listSlice_at, listDelete_at]

/-- A record is put in front of the history, whose oldest record may go. -/
theorem pushUndo_eq (s : EditorState) (op : UndoOp) (before : Moment) :
    ∃ kept, s.pushUndo op before = { s with undo := ⟨op, before, s.moment⟩ :: s.undo.take kept } ∧
      (s.undo ≠ [] → 0 < kept) := by
  unfold pushUndo
  dsimp only
  split
  · rename_i hFull
    rw [List.length_cons] at hFull
    have hCap : undoCap < s.undo.length + 1 := hFull
    rw [undoCap] at hCap
    obtain ⟨kept, hKept⟩ : ∃ kept, s.undo.length = kept + 1 := ⟨s.undo.length - 1, by omega⟩
    refine ⟨kept, ?_, fun _ => by omega⟩
    rw [List.dropLast_eq_take, List.length_cons, hKept, Nat.add_sub_cancel, List.take_succ_cons]
  · refine ⟨s.undo.length, ?_, fun hSome => List.length_pos_iff.mpr hSome⟩
    rw [List.take_length]

theorem pushUndo_redo (s : EditorState) (op : UndoOp) (before : Moment) :
    (s.pushUndo op before).redo = s.redo := rfl

/-! The invariant. -/

/-- Cursor and anchor are in the text, and the history leads to it. -/
structure Sound (s : EditorState) : Prop where
  cursor_le : s.cursor ≤ s.buffer.length
  anchor_le : s.anchor ≤ s.buffer.length
  fits : ∀ e ∈ s.undo, e.Fits
  past : Chained (fun e : Entry => e.before.text) (fun e => e.after.text) s.undo s.buffer

/-- The undone edits, from the last undone on, lead on from the text. -/
structure Linear (s : EditorState) : Prop extends Sound s where
  redo_fits : ∀ e ∈ s.redo, e.Fits
  future : Chained (fun e : Entry => e.after.text) (fun e => e.before.text) s.redo s.buffer

theorem Sound.inside (h : s.Sound) : s.moment.Inside := h.cursor_le

theorem Sound.last_left (h : s.Sound) {e : Entry} {rest : List Entry} (hUndo : s.undo = e :: rest) :
    e.after.text = s.buffer := by
  have hPast := h.past
  rw [hUndo] at hPast
  exact hPast.1

theorem Linear.next_from (h : s.Linear) {e : Entry} {rest : List Entry} (hRedo : s.redo = e :: rest) :
    e.before.text = s.buffer := by
  have hFuture := h.future
  rw [hRedo] at hFuture
  exact hFuture.1

/-- A sound state without a future is linear. -/
theorem Sound.linear (h : s.Sound) (hRedo : s.redo = []) : s.Linear where
  toSound := h
  redo_fits e hMem := by
    rw [hRedo] at hMem
    exact absurd hMem List.not_mem_nil
  future := by
    rw [hRedo]
    exact chained_nil _

/-! Edits. -/

/-- The edit has a record of its own, from the moment it was made to the one it left. -/
def Pushed (s t : EditorState) : Prop :=
  ∃ e kept, t.undo = e :: s.undo.take kept ∧ (s.undo ≠ [] → 0 < kept) ∧
    e.before = s.moment ∧ e.after = t.moment

/-- The edit is in the record of the edit before it, which still starts where it did. -/
def Joined (s t : EditorState) : Prop :=
  ∃ e e' rest, s.undo = e :: rest ∧ t.undo = e' :: rest ∧ e'.before = e.before ∧ e'.after = t.moment

/-- How the history shows that an edit led from `s` to `t`: over a selection as two edits. -/
inductive Recorded (s t : EditorState) : Prop where
  | pushed (h : Pushed s t)
  | joined (h : Joined s t)
  | over (u : EditorState) (hCut : Pushed s u) (h : Pushed u t)

/-- A recorded edit that leaves nothing to redo. -/
structure Edited (s t : EditorState) : Prop where
  sound : t.Sound
  recorded : Recorded s t
  redo : t.redo = []

/-- The record of an edit, pushed onto the history of the state before it. -/
theorem Sound.record (h : s.Sound) {op : UndoOp} (hUndo : t.undo = s.undo)
    (hFits : Entry.Fits ⟨op, s.moment, t.moment⟩) (hAnchor : t.anchor ≤ t.buffer.length) :
    (t.pushUndo op s.moment).Sound ∧ Pushed s (t.pushUndo op s.moment) := by
  obtain ⟨kept, hEq, hKept⟩ := t.pushUndo_eq op s.moment
  rw [hUndo] at hEq hKept
  rw [hEq]
  refine ⟨⟨hFits.inside_after, hAnchor, ?_, ?_⟩, _, kept, rfl, hKept, rfl, rfl⟩
  · intro e hMem
    rcases List.mem_cons.mp hMem with rfl | hOld
    · exact hFits
    · exact h.fits e (List.mem_of_mem_take hOld)
  · exact (h.past.take kept).push ⟨op, s.moment, t.moment⟩ rfl

/-- The last record may grow, as long as it still starts where it did. -/
theorem Sound.amend (h : s.Sound) {e e' : Entry} {rest : List Entry} (hUndo : s.undo = e :: rest)
    (hFits : e'.Fits) (hBefore : e'.before = e.before) (hAfter : e'.after = t.moment)
    (hAnchor : t.anchor ≤ t.buffer.length) :
    ({ t with undo := e' :: rest }).Sound ∧ Joined s { t with undo := e' :: rest } := by
  have hPast := h.past
  rw [hUndo] at hPast
  refine ⟨⟨?_, hAnchor, ?_, ?_⟩, e, e', rest, hUndo, rfl, hBefore, hAfter⟩
  · have hInside := hFits.inside_after
    rw [hAfter] at hInside
    exact hInside
  · intro e'' hMem
    rcases List.mem_cons.mp hMem with rfl | hOld
    · exact hFits
    · exact h.fits e'' (hUndo ▸ List.mem_cons_of_mem e hOld)
  · have hAmended := hPast.amend e' (congrArg Moment.text hBefore)
    rw [hAfter] at hAmended
    exact hAmended

/-- Soundness is about text, cursor, anchor and past only. -/
theorem Sound.with (h : s.Sound) (prefCol : Nat) (redo : List Entry)
    (coalesce : Option CoalesceKind) :
    ({ s with prefCol := prefCol, redo := redo, coalesce := coalesce }).Sound :=
  ⟨h.cursor_le, h.anchor_le, h.fits, h.past⟩

/-- The record of an edit with one change of the text. -/
theorem Sound.fits_push (h : s.Sound) {left right : List UInt32} {op : UndoOp}
    (hStart : left.length = op.start) (hBuffer : s.buffer = left ++ op.removedText ++ right)
    (hBefore : op.cursorBefore = s.cursor) (hNew : t.buffer = left ++ op.insertedText ++ right)
    (hAfter : op.cursorAfter = t.cursor) (hInside : t.cursor ≤ t.buffer.length) :
    Entry.Fits ⟨op, s.moment, t.moment⟩ :=
  ⟨⟨left, right, hStart, hBuffer, hNew⟩, hBefore, hAfter, h.inside, hInside⟩

theorem selectionRange_bounds (h : s.Sound) {lo hi : Nat} (hSel : s.selectionRange = some (lo, hi)) :
    lo ≤ hi ∧ hi ≤ s.buffer.length := by
  have hCursor := h.cursor_le
  have hAnchor := h.anchor_le
  unfold selectionRange at hSel
  split at hSel
  · cases hSel
  · split at hSel
    · obtain ⟨rfl, rfl⟩ := Prod.mk.inj (Option.some.inj hSel)
      exact ⟨by omega, hCursor⟩
    · obtain ⟨rfl, rfl⟩ := Prod.mk.inj (Option.some.inj hSel)
      exact ⟨by omega, hAnchor⟩

theorem deleteSelection_some (h : s.Sound) (hDelete : s.deleteSelectionToUndo = some t) :
    t.Sound ∧ Pushed s t ∧ t.coalesce = none := by
  obtain ⟨⟨lo, hi⟩, hSel, hEq⟩ := Option.map_eq_some_iff.mp hDelete
  obtain ⟨hLo, hHi⟩ := selectionRange_bounds h hSel
  obtain ⟨left, mid, right, hBuffer, hLeft, hMid⟩ := exists_cut hLo hHi
  dsimp only at hEq
  rw [spliceOut_at hBuffer hLeft hMid] at hEq
  dsimp only at hEq
  let u : EditorState := { s with buffer := left ++ right }.place lo
  have hEnd : lo ≤ u.buffer.length := by
    show lo ≤ (left ++ right).length
    rw [List.length_append]
    omega
  have hFits : Entry.Fits ⟨.deleted lo mid s.cursor lo, s.moment, u.moment⟩ :=
    h.fits_push hLeft hBuffer rfl (by rw [UndoOp.insertedText, List.append_nil]; rfl) rfl hEnd
  obtain ⟨hSound, hPushed⟩ := h.record (t := u) rfl hFits hEnd
  subst hEq
  exact ⟨⟨hSound.cursor_le, hSound.anchor_le, hSound.fits, hSound.past⟩, hPushed, rfl⟩

theorem deleteSelection_redo (hDelete : s.deleteSelectionToUndo = some t) : t.redo = s.redo := by
  obtain ⟨⟨lo, hi⟩, -, hEq⟩ := Option.map_eq_some_iff.mp hDelete
  subst hEq
  show (s.spliceOut lo hi).2.redo = s.redo
  unfold spliceOut
  split
  · rfl
  · rfl

/-- Where the joined record of typing comes from. -/
theorem extendInserted_some {undo undo' : List Entry} {start : Nat} {cps : List UInt32}
    {after : Moment} (h : extendInserted undo start cps after = some undo') :
    ∃ prevStart prevText cursorBefore cursorAfter before prevAfter rest,
      undo = ⟨.inserted prevStart prevText cursorBefore cursorAfter, before, prevAfter⟩ :: rest ∧
      prevStart + prevText.length = start ∧
      undo' = ⟨.inserted prevStart (prevText ++ cps) cursorBefore after.cursor, before, after⟩
        :: rest := by
  unfold extendInserted at h
  split at h
  · split at h
    · rename_i hEnd
      exact ⟨_, _, _, _, _, _, _, rfl, hEnd, (Option.some.inj h).symm⟩
    · cases h
  · cases h

theorem extendDeleted_some {undo undo' : List Entry} {stop : Nat} {removed : List UInt32}
    {after : Moment} (h : extendDeleted undo stop removed after = some undo') :
    ∃ prevText cursorBefore cursorAfter before prevAfter rest,
      undo = ⟨.deleted stop prevText cursorBefore cursorAfter, before, prevAfter⟩ :: rest ∧
      undo' = ⟨.deleted after.cursor (removed ++ prevText) cursorBefore after.cursor, before, after⟩
        :: rest := by
  unfold extendDeleted at h
  split at h
  · split at h
    · rename_i hStart
      subst hStart
      exact ⟨_, _, _, _, _, _, rfl, (Option.some.inj h).symm⟩
    · cases h
  · cases h

/-- Typing is joined to the typing before it, and every other insertion has its own record. -/
theorem insertCps_edited (h : s.Sound) (cps : List UInt32) (coalesce : Option CoalesceKind) :
    (s.insertCps cps coalesce).Sound ∧ (s.insertCps cps coalesce).redo = [] ∧
      (Pushed s (s.insertCps cps coalesce) ∨
        s.coalesce = some .insert ∧ Joined s (s.insertCps cps coalesce)) := by
  obtain ⟨mid, right, hBuffer, hMid⟩ := exists_split h.cursor_le
  have hSplice := spliceInCps_at hBuffer hMid cps
  simp only [insertCps, hSplice]
  let t : EditorState :=
    { ({ s with buffer := mid ++ cps ++ right } : EditorState).place (s.cursor + cps.length) with
      redo := [] }
  have hEnd : s.cursor + cps.length ≤ (mid ++ cps ++ right).length := by
    rw [List.length_append, List.length_append]
    omega
  split
  · -- Joined: the record of the typing before ends where the new text starts.
    rename_i undo hExtended
    split at hExtended
    · rename_i hTyping
      obtain ⟨start, text, cursorBefore, cursorAfter, before, prevAfter, rest, hUndo, hStart, rfl⟩ :=
        extendInserted_some hExtended
      have hOld := h.fits _ (hUndo ▸ List.mem_cons_self)
      obtain ⟨l, r, hAt, hFrom, hTo⟩ := hOld.texts
      have hNow : l ++ text ++ r = mid ++ right := by
        rw [← hBuffer, ← h.last_left hUndo]
        exact hTo.symm
      have hSame : l ++ text = mid ∧ r = right := by
        apply List.append_inj hNow
        rw [List.length_append, hAt, hMid]
        exact hStart
      obtain ⟨rfl, rfl⟩ := hSame
      have hFits : Entry.Fits
          ⟨.inserted start (text ++ cps) cursorBefore t.moment.cursor, before, t.moment⟩ :=
        ⟨⟨l, r, hAt, hFrom, by simp [t, moment, place, UndoOp.insertedText]⟩, hOld.before, rfl,
          hOld.inside_before, hEnd⟩
      obtain ⟨hSound, hJoined⟩ := h.amend (t := t) hUndo hFits rfl rfl hEnd
      exact ⟨hSound.with t.prefCol [] coalesce, rfl, .inr ⟨hTyping.2, hJoined⟩⟩
    · cases hExtended
  · have hFits : Entry.Fits
        ⟨.inserted s.cursor cps s.cursor (s.cursor + cps.length), s.moment, t.moment⟩ :=
      h.fits_push hMid (by rw [UndoOp.removedText, List.append_nil]; exact hBuffer) rfl rfl rfl hEnd
    obtain ⟨hSound, hPushed⟩ := h.record (t := t) rfl hFits hEnd
    exact ⟨hSound.with t.prefCol [] coalesce, rfl, .inl hPushed⟩

theorem deleteBack_edited (h : s.Sound) : Edited s s.deleteBack := by
  have hBack : s.cursor - 1 ≤ s.cursor := Nat.sub_le s.cursor 1
  obtain ⟨left, mid, right, hBuffer, hLeft, hMid⟩ := exists_cut hBack h.cursor_le
  have hSplice := spliceOut_at hBuffer hLeft hMid
  simp only [deleteBack, hSplice]
  let t : EditorState :=
    { ({ s with buffer := left ++ right } : EditorState).place (s.cursor - 1) with redo := [] }
  have hEnd : s.cursor - 1 ≤ (left ++ right).length := by
    rw [List.length_append]
    omega
  split
  · -- Joined: the record of the backspaces before starts where this one ends.
    rename_i undo hExtended
    split at hExtended
    · obtain ⟨text, cursorBefore, cursorAfter, before, prevAfter, rest, hUndo, rfl⟩ :=
        extendDeleted_some hExtended
      have hOld := h.fits _ (hUndo ▸ List.mem_cons_self)
      obtain ⟨l, r, hAt, hFrom, hTo⟩ := hOld.texts
      rw [UndoOp.insertedText, List.append_nil] at hTo
      have hNow : l ++ r = left ++ mid ++ right := by
        rw [← hBuffer, ← h.last_left hUndo]
        exact hTo.symm
      have hSame : l = left ++ mid ∧ r = right := by
        apply List.append_inj hNow
        rw [List.length_append, hLeft, hMid]
        exact hAt
      obtain ⟨rfl, rfl⟩ := hSame
      have hFits : Entry.Fits
          ⟨.deleted t.moment.cursor (mid ++ text) cursorBefore t.moment.cursor, before, t.moment⟩ :=
        ⟨⟨left, r, hLeft, by simpa [UndoOp.removedText] using hFrom,
          by simp [t, moment, place, UndoOp.insertedText]⟩, hOld.before, rfl, hOld.inside_before, hEnd⟩
      obtain ⟨hSound, hJoined⟩ := h.amend (t := t) hUndo hFits rfl rfl hEnd
      exact ⟨hSound.with t.prefCol [] (some .backspace), .joined hJoined, rfl⟩
    · cases hExtended
  · have hFits : Entry.Fits
        ⟨.deleted (s.cursor - 1) mid s.cursor (s.cursor - 1), s.moment, t.moment⟩ :=
      h.fits_push hLeft hBuffer rfl (by rw [UndoOp.insertedText, List.append_nil]; rfl) rfl hEnd
    obtain ⟨hSound, hPushed⟩ := h.record (t := t) rfl hFits hEnd
    exact ⟨hSound.with t.prefCol [] (some .backspace), .pushed hPushed, rfl⟩

theorem anchor_of_no_selection (h : s.deleteSelectionToUndo = none) : s.cursor = s.anchor := by
  have hNone : s.selectionRange = none := Option.map_eq_none_iff.mp h
  unfold selectionRange at hNone
  split at hNone
  · assumption
  · split at hNone <;> cases hNone

/-- A command that deletes the selection and clears the future. -/
theorem deleteSelection_edited (h : s.Sound) (hDelete : s.deleteSelectionToUndo = some t)
    (coalesce : Option CoalesceKind) : Edited s { t with redo := [], coalesce := coalesce } := by
  obtain ⟨hSound, hPushed, -⟩ := deleteSelection_some h hDelete
  exact ⟨hSound.with t.prefCol [] coalesce, .pushed hPushed, rfl⟩

theorem backspace_edited (h : s.Sound) : s.backspace = s ∨ Edited s s.backspace := by
  unfold backspace
  split
  · rename_i t hDelete
    exact .inr (deleteSelection_edited h hDelete t.coalesce)
  · split
    · exact .inl rfl
    · exact .inr (deleteBack_edited h)

theorem deleteForward_edited (h : s.Sound) :
    s.deleteForward = s ∨ Edited s s.deleteForward := by
  unfold deleteForward
  split
  · rename_i t hDelete
    exact .inr (deleteSelection_edited h hDelete t.coalesce)
  · rename_i hNoSelection
    split
    · exact .inl rfl
    · rename_i hInside
      right
      have hNext : s.cursor ≤ s.cursor + 1 := Nat.le_succ _
      have hRoom : s.cursor + 1 ≤ s.buffer.length := Nat.lt_of_not_le hInside
      obtain ⟨left, mid, right, hBuffer, hLeft, hMid⟩ := exists_cut hNext hRoom
      have hSplice := spliceOut_at hBuffer hLeft hMid
      simp only [hSplice]
      let t : EditorState := { s with buffer := left ++ right, redo := [], coalesce := none }
      have hEnd : s.cursor ≤ (left ++ right).length := by
        rw [List.length_append]
        omega
      have hFits : Entry.Fits ⟨.deleted s.cursor mid s.cursor s.cursor, s.moment, t.moment⟩ :=
        h.fits_push hLeft hBuffer rfl (by rw [UndoOp.insertedText, List.append_nil]) rfl hEnd
      have hAnchor : s.anchor ≤ (left ++ right).length := by
        rw [← anchor_of_no_selection hNoSelection]
        exact hEnd
      obtain ⟨hSound, hPushed⟩ := h.record (t := t) rfl hFits hAnchor
      exact ⟨hSound, .pushed hPushed, pushUndo_redo t _ _⟩

theorem doReplace_edited (h : s.Sound) {start stop : Nat} {newCps : List UInt32} {cursorAfter : Nat}
    (hStart : start ≤ stop) (hStop : stop ≤ s.buffer.length)
    (hCursor : cursorAfter + (stop - start) ≤ s.buffer.length + newCps.length) :
    Edited s (s.doReplace start stop newCps cursorAfter) := by
  obtain ⟨left, mid, right, hBuffer, hLeft, hMid⟩ := exists_cut hStart hStop
  have hSplice := spliceOut_at hBuffer hLeft hMid
  have hNew : ({ s with buffer := left ++ right } : EditorState).spliceInCps start newCps = _ :=
    spliceInCps_at rfl hLeft newCps
  simp only [doReplace, hSplice, hNew]
  let t : EditorState :=
    { ({ s with buffer := left ++ newCps ++ right } : EditorState).place cursorAfter with
      redo := [], coalesce := none }
  have hEnd : cursorAfter ≤ (left ++ newCps ++ right).length := by
    have hLength := congrArg List.length hBuffer
    rw [List.length_append, List.length_append] at hLength ⊢
    omega
  have hFits : Entry.Fits ⟨.replaced start mid newCps s.cursor cursorAfter, s.moment, t.moment⟩ :=
    h.fits_push hLeft hBuffer rfl rfl rfl hEnd
  obtain ⟨hSound, hPushed⟩ := h.record (t := t) rfl hFits hEnd
  exact ⟨hSound, .pushed hPushed, pushUndo_redo t _ _⟩

/-- Without a selection an insertion is one edit, and over a selection it is a second one. -/
theorem doInsert_edited (h : s.Sound) (text : List Char) (coalesce : Option CoalesceKind)
    (hSome : codepointsOf text ≠ []) : Edited s (s.doInsert text coalesce) := by
  unfold doInsert
  have hEmpty : (codepointsOf text).isEmpty = false := by simpa using hSome
  simp only [hEmpty]
  cases hDelete : s.deleteSelectionToUndo with
  | none =>
    obtain ⟨hSound, hRedo, hPushed | ⟨-, hJoined⟩⟩ := insertCps_edited h (codepointsOf text) coalesce
    · exact ⟨hSound, .pushed hPushed, hRedo⟩
    · exact ⟨hSound, .joined hJoined, hRedo⟩
  | some t =>
    obtain ⟨hCut, hCutPushed, hCoalesce⟩ := deleteSelection_some h hDelete
    obtain ⟨hSound, hRedo, hPushed | ⟨hTyping, -⟩⟩ :=
      insertCps_edited hCut (codepointsOf text) coalesce
    · exact ⟨hSound, .over t hCutPushed hPushed, hRedo⟩
    · rw [hCoalesce] at hTyping
      cases hTyping

/-! Text that is never without code points. -/

theorem codepointsOf_ne_nil {c : Char} {b : UInt8} (hByte : String.utf8EncodeChar c = [b])
    (hMark : b ≠ 0xEF) (rest : List Char) : codepointsOf (c :: rest) ≠ [] := by
  have hBytes : (c :: rest).flatMap String.utf8EncodeChar =
      b :: rest.flatMap String.utf8EncodeChar := by
    rw [List.flatMap_cons, hByte]
    rfl
  have hNoMark : ¬ (b :: rest.flatMap String.utf8EncodeChar).take 3 = [0xEF, 0xBB, 0xBF] := by
    intro hTake
    exact hMark (List.cons.inj hTake).1
  rw [codepointsOf, hBytes, utf8ToCodepoints, if_neg hNoMark, decodeFrom]
  exact List.cons_ne_nil _ _

theorem insertNewline_edited (h : s.Sound) : Edited s s.insertNewline :=
  doInsert_edited h _ none (codepointsOf_ne_nil (b := 0x0A) rfl (by decide) _)

theorem insertTab_edited (h : s.Sound) : Edited s s.insertTab := by
  have hPad : ∃ k, tabWidth - bufferColToDisplay
      (codepointsToUtf8 (getLine s.buffer s.cursorRow)) s.cursorCol % tabWidth = k + 1 := by
    refine Nat.exists_eq_add_one.mpr (Nat.sub_pos_of_lt (Nat.mod_lt _ ?_))
    decide
  obtain ⟨k, hPad⟩ := hPad
  simp only [insertTab, hPad, List.replicate_succ, insertStr, List.isEmpty_cons]
  exact doInsert_edited h _ none (codepointsOf_ne_nil (c := ' ') (b := 0x20) rfl (by decide) _)

theorem cut_edited (h : s.Sound) (clipboardSet : Bool) :
    s.cut clipboardSet = s ∨ Edited s (s.cut clipboardSet) := by
  unfold cut
  split
  · exact .inl rfl
  · rename_i hSome
    split
    · exact .inl rfl
    · right
      cases hDelete : s.deleteSelectionToUndo with
      | none => 
        have hNone : s.selectionRange = none := Option.map_eq_none_iff.mp hDelete
        rw [hNone] at hSome
        exact absurd rfl hSome
      | some t => exact deleteSelection_edited h hDelete none

end EditorState
end FactorForth.Editor
