import FactorForth.Gui.ReplInput

/-! The input of the console and its history: Up and Down move the cursor between the lines of the input,
and from the first and the last line they walk through the submitted inputs. -/

namespace FactorForth.Gui
open FactorForth.Library

def lineMax : Nat := 4096

def historyCap : Nat := 1024

/-- The loop down from `i` to the position behind a line feed. -/
def lineStartFrom (input : List Char) : Nat → Nat
  | 0 => 0
  | i + 1 => if input[i]? = some '\n' then i + 1 else lineStartFrom input i

def logicalLineStart (input : List Char) (cursor : Nat) : Nat :=
  lineStartFrom input (min cursor input.length)

/-- The position of the next line feed, or the end. -/
def logicalLineEnd (input : List Char) (cursor : Nat) : Nat :=
  min cursor input.length + ((input.drop (min cursor input.length)).takeWhile (· != '\n')).length

structure Console where
  input : List Char
  cursor : Nat
  history : List (List Char)
  historyIdx : Option Nat
  historyDraft : Option (List Char × Nat)

inductive Arrow where
  | up
  | down
deriving DecidableEq, Repr

/-- One place older or newer, where `live` is the place behind the newest entry. -/
def Arrow.place (dir : Arrow) (place live : Nat) : Nat :=
  match dir with
  | .up => place - 1
  | .down => min (place + 1) live

inductive ConsoleKey where
  | char (c : Char)
  | enter (shift : Bool)
  | back
  | delete
  | left
  | right
  | home (ctrl : Bool)
  | end_ (ctrl : Bool)
  | arrow (dir : Arrow)
  | clearInput

namespace Console
variable (s : Console)

def empty : Console := ⟨[], 0, [], none, none⟩

/-- One logical line up or down in the same column, if there is a line in that direction. -/
def moveCursorVertical (dir : Arrow) : Option Console :=
  let lineStart := logicalLineStart s.input s.cursor
  let col := s.cursor - lineStart
  match dir with
  | .up =>
    if lineStart = 0 then none
    else
      let prevEnd := lineStart - 1
      let prevStart := logicalLineStart s.input prevEnd
      some { s with cursor := prevStart + min col (prevEnd - prevStart) }
  | .down =>
    let curEnd := logicalLineEnd s.input s.cursor
    if curEnd = s.input.length then none
    else
      let nextStart := curEnd + 1
      let nextEnd := logicalLineEnd s.input nextStart
      some { s with cursor := nextStart + min col (nextEnd - nextStart) }

/-- The entry that a step of the walk comes to; none is the live draft. -/
def nextIdx (dir : Arrow) : Option Nat :=
  match s.historyIdx, dir with
  | none, .up => some (s.history.length - 1)
  | none, .down => none
  | some i, .up => some (i - 1)
  | some i, .down => if s.history.length ≤ i + 1 then none else some (i + 1)

/-- A walk that starts at the live draft saves it. -/
def saveDraft (dir : Arrow) : Console :=
  match s.historyIdx, dir with
  | none, .up => { s with historyDraft := some (s.input, s.cursor) }
  | _, _ => s

def historyWalk (dir : Arrow) : Console :=
  if s.history.isEmpty then s
  else
    let saved := s.saveDraft dir
    match s.nextIdx dir with
    | some i =>
      { saved with
        input := s.history.getD i [], cursor := (s.history.getD i []).length, historyIdx := some i }
    | none =>
      match saved.historyDraft with
      | some (draft, cur) => ⟨draft, cur, s.history, none, none⟩
      | none => ⟨[], 0, s.history, none, none⟩

def handleArrow (dir : Arrow) : Console := (s.moveCursorVertical dir).getD (s.historyWalk dir)

/-- An edit makes what is shown the live draft. -/
def edited : Console := { s with historyIdx := none, historyDraft := none }

def insertAt (c : Char) : Console :=
  if s.input.length < lineMax then
    { s.edited with input := s.input.insertIdx s.cursor c, cursor := s.cursor + 1 }
  else s.edited

def submitInput : Console :=
  let kept := if historyCap ≤ s.history.length then s.history.drop 1 else s.history
  let history :=
    if s.input.isEmpty || s.history.getLast? = some s.input then s.history else kept ++ [s.input]
  ⟨[], 0, history, none, none⟩

def handleKey : ConsoleKey → Console
  | .char c => if c.toNat < 0x20 then s else s.insertAt c
  | .enter true => s.insertAt '\n'
  | .enter false => if formComplete s.input = .complete then s.submitInput else s.insertAt '\n'
  | .back =>
    if 0 < s.cursor then
      { s.edited with input := s.input.eraseIdx (s.cursor - 1), cursor := s.cursor - 1 }
    else s.edited
  | .delete =>
    if s.cursor < s.input.length then { s.edited with input := s.input.eraseIdx s.cursor }
    else s.edited
  | .left => if 0 < s.cursor then { s with cursor := s.cursor - 1 } else s
  | .right => if s.cursor < s.input.length then { s with cursor := s.cursor + 1 } else s
  | .home true => { s with cursor := 0 }
  | .home false => { s with cursor := logicalLineStart s.input s.cursor }
  | .end_ true => { s with cursor := s.input.length }
  | .end_ false => { s with cursor := logicalLineEnd s.input s.cursor }
  | .arrow dir => s.handleArrow dir
  | .clearInput => ⟨[], 0, s.history, none, none⟩

/-- The place of the walk: behind the newest entry is the live draft. -/
def position : Nat := s.historyIdx.getD s.history.length

end Console

/-- An input being typed, with its cursor. -/
structure Draft where
  input : List Char
  cursor : Nat
  cursor_le : cursor ≤ input.length

/-- A console in which a draft is being typed. -/
def Console.live (history : List (List Char)) (d : Draft) : Console :=
  ⟨d.input, d.cursor, history, none, none⟩

/-! Lines. -/

section Lines
variable {input : List Char}

theorem lineStartFrom_le (i : Nat) : lineStartFrom input i ≤ i := by
  induction i with
  | zero => exact Nat.le_refl 0
  | succ i ih =>
    rw [lineStartFrom]
    split
    · exact Nat.le_refl _
    · exact Nat.le_succ_of_le ih

theorem logicalLineStart_le (input : List Char) (cursor : Nat) :
    logicalLineStart input cursor ≤ cursor :=
  (lineStartFrom_le _).trans (Nat.min_le_left _ _)

theorem logicalLineEnd_bounds {cursor : Nat} (h : cursor ≤ input.length) :
    cursor ≤ logicalLineEnd input cursor ∧ logicalLineEnd input cursor ≤ input.length := by
  have hLine := (List.takeWhile_prefix (· != '\n') (l := input.drop cursor)).length_le
  rw [List.length_drop] at hLine
  rw [logicalLineEnd, Nat.min_eq_left h]
  omega

end Lines

/-! What a key keeps. -/

namespace Console
variable {s : Console}

/-- The cursor is in the input; a walk is at an entry of the history, shows it and has the draft it
started from, and without a walk there is no such draft. -/
structure Sound (s : Console) : Prop where
  cursor_le : s.cursor ≤ s.input.length
  walk : ∀ i, s.historyIdx = some i →
    i < s.history.length ∧ s.input = s.history.getD i [] ∧
      ∃ d : Draft, s.historyDraft = some (d.input, d.cursor)
  live : s.historyIdx = none → s.historyDraft = none

theorem Sound.at (h : s.Sound) {cursor : Nat} (hCursor : cursor ≤ s.input.length) :
    Sound { s with cursor } := ⟨hCursor, h.walk, h.live⟩

theorem sound_live {s : Console} (hCursor : s.cursor ≤ s.input.length) (hIdx : s.historyIdx = none)
    (hDraft : s.historyDraft = none) : s.Sound := by
  refine ⟨hCursor, ?_, fun _ => hDraft⟩
  intro i hi
  rw [hIdx] at hi
  cases hi

theorem moveCursorVertical_some (h : s.Sound) {dir : Arrow} {t : Console}
    (ht : s.moveCursorVertical dir = some t) :
    ∃ cursor, cursor ≤ s.input.length ∧ t = { s with cursor } := by
  have hCursor := h.cursor_le
  have hStart := logicalLineStart_le s.input s.cursor
  unfold moveCursorVertical at ht
  cases dir with
  | up =>
    dsimp only at ht
    split at ht
    · cases ht
    · obtain rfl := Option.some.inj ht
      have hPrev := logicalLineStart_le s.input (logicalLineStart s.input s.cursor - 1)
      exact ⟨_, by omega, rfl⟩
  | down =>
    dsimp only at ht
    split at ht
    · cases ht
    · next hEnd =>
      obtain rfl := Option.some.inj ht
      have hCur := logicalLineEnd_bounds hCursor
      have hInside : logicalLineEnd s.input s.cursor + 1 ≤ s.input.length := by omega
      have hNext := logicalLineEnd_bounds hInside
      exact ⟨_, by omega, rfl⟩

/-- What an arrow can do. -/
inductive ArrowStep (s : Console) : Arrow → Console → Prop where
  /-- The cursor moves to another line. -/
  | vertical {dir : Arrow} {cursor : Nat} (hLine : (s.moveCursorVertical dir).isSome = true)
      (hCursor : cursor ≤ s.input.length) : ArrowStep s dir { s with cursor }
  /-- There is nothing to walk through. -/
  | nowhere {dir : Arrow} (hLine : s.moveCursorVertical dir = none) (hEmpty : s.history = []) :
      ArrowStep s dir s
  /-- A walk begins at the newest entry. -/
  | begins (hLine : s.moveCursorVertical .up = none) (hSome : s.history ≠ [])
      (hIdx : s.historyIdx = none) :
      ArrowStep s .up ⟨s.history.getD (s.history.length - 1) [],
        (s.history.getD (s.history.length - 1) []).length, s.history, some (s.history.length - 1),
        some (s.input, s.cursor)⟩
  /-- Down at the live draft. -/
  | clears (hLine : s.moveCursorVertical .down = none) (hSome : s.history ≠ [])
      (hIdx : s.historyIdx = none) : ArrowStep s .down ⟨[], 0, s.history, none, none⟩
  /-- The walk goes on. -/
  | walks {dir : Arrow} {i j : Nat} (hLine : s.moveCursorVertical dir = none)
      (hIdx : s.historyIdx = some i) (hNext : s.nextIdx dir = some j) (hj : j < s.history.length) :
      ArrowStep s dir ⟨s.history.getD j [], (s.history.getD j []).length, s.history, some j,
        s.historyDraft⟩
  /-- The walk is back at the draft. -/
  | returns {i : Nat} {d : Draft} (hLine : s.moveCursorVertical .down = none)
      (hIdx : s.historyIdx = some i) (hLast : s.history.length ≤ i + 1)
      (hDraft : s.historyDraft = some (d.input, d.cursor)) :
      ArrowStep s .down ⟨d.input, d.cursor, s.history, none, none⟩

theorem handleArrow_step (h : s.Sound) (dir : Arrow) : ArrowStep s dir (s.handleArrow dir) := by
  rw [handleArrow]
  cases hLine : s.moveCursorVertical dir with
  | some t =>
    obtain ⟨cursor, hCursor, rfl⟩ := moveCursorVertical_some h hLine
    exact .vertical (by rw [hLine]; rfl) hCursor
  | none =>
    rw [Option.getD_none, historyWalk]
    by_cases hEmpty : s.history = []
    · rw [if_pos (by rw [hEmpty]; rfl)]
      exact .nowhere hLine hEmpty
    · rw [if_neg (by simpa using hEmpty)]
      cases hIdx : s.historyIdx with
      | none =>
        cases dir with
        | up =>
          simp only [nextIdx, saveDraft, hIdx]
          exact .begins hLine hEmpty hIdx
        | down =>
          simp only [nextIdx, saveDraft, hIdx, h.live hIdx]
          exact .clears hLine hEmpty hIdx
      | some i =>
        obtain ⟨hi, -, d, hDraft⟩ := h.walk i hIdx
        have hSaved : s.saveDraft dir = s := by
          unfold saveDraft
          rw [hIdx]
        rw [hSaved]
        cases hNext : s.nextIdx dir with
        | some j =>
          have hj : j < s.history.length := by
            cases dir with
            | up =>
              simp only [nextIdx, hIdx, Option.some.injEq] at hNext
              omega
            | down =>
              simp only [nextIdx, hIdx] at hNext
              split at hNext
              · cases hNext
              · obtain rfl := Option.some.inj hNext
                omega
          exact .walks hLine hIdx hNext hj
        | none =>
          cases dir with
          | up => simp [nextIdx, hIdx] at hNext
          | down =>
            simp only [nextIdx, hIdx] at hNext
            split at hNext
            · next hLast =>
              simp only [hDraft]
              exact .returns hLine hIdx hLast hDraft
            · cases hNext

theorem ArrowStep.sound {dir : Arrow} {t : Console} (hStep : ArrowStep s dir t) (h : s.Sound) :
    t.Sound := by
  cases hStep with
  | vertical _ hCursor => exact h.at hCursor
  | nowhere => exact h
  | begins _ hSome =>
    refine ⟨Nat.le_refl _, ?_, fun hNone => nomatch hNone⟩
    intro i hi
    obtain rfl := Option.some.inj hi
    have hPos := List.length_pos_iff.mpr hSome
    exact ⟨Nat.sub_lt hPos Nat.one_pos, rfl, ⟨s.input, s.cursor, h.cursor_le⟩, rfl⟩
  | clears => exact sound_live (Nat.le_refl 0) rfl rfl
  | walks _ hIdx _ hj =>
    refine ⟨Nat.le_refl _, ?_, fun hNone => nomatch hNone⟩
    intro j' hj'
    obtain rfl := Option.some.inj hj'
    exact ⟨hj, rfl, (h.walk _ hIdx).2.2⟩
  | @returns i d _ _ _ _ => exact sound_live d.cursor_le rfl rfl

theorem ArrowStep.history {dir : Arrow} {t : Console} (hStep : ArrowStep s dir t) :
    t.history = s.history := by
  cases hStep <;> rfl

/-- A step of the walk goes one place up or down, and not over the ends. -/
theorem ArrowStep.position {dir : Arrow} {t : Console} (hStep : ArrowStep s dir t) (h : s.Sound) :
    t.position = if (s.moveCursorVertical dir).isSome then s.position
      else dir.place s.position s.history.length := by
  cases hStep with
  | vertical hLine => rw [if_pos hLine, Console.position, Console.position]
  | nowhere hLine hEmpty =>
    have hZero : s.position = 0 := by
      rw [Console.position, hEmpty]
      cases hIdx : s.historyIdx with
      | none => rfl
      | some i =>
        have hi := (h.walk i hIdx).1
        rw [hEmpty] at hi
        cases hi
    rw [hLine, Option.isSome_none, if_neg Bool.false_ne_true, hZero, hEmpty]
    cases dir <;> rfl
  | begins hLine _ hIdx =>
    rw [hLine, Option.isSome_none, if_neg Bool.false_ne_true, Console.position, Console.position,
      hIdx]
    rfl
  | clears hLine _ hIdx =>
    rw [hLine, Option.isSome_none, if_neg Bool.false_ne_true, Console.position, Console.position,
      hIdx]
    simp [Arrow.place]
  | @walks dir i j hLine hIdx hNext hj =>
    rw [hLine, Option.isSome_none, if_neg Bool.false_ne_true, Console.position, Console.position,
      hIdx]
    cases dir with
    | up =>
      simp only [nextIdx, hIdx, Option.some.injEq] at hNext
      exact hNext.symm
    | down =>
      simp only [nextIdx, hIdx] at hNext
      split at hNext
      · cases hNext
      · obtain rfl := Option.some.inj hNext
        simp only [Arrow.place, Option.getD_some]
        omega
  | @returns i d hLine hIdx hLast hDraft =>
    have hi := (h.walk i hIdx).1
    rw [hLine, Option.isSome_none, if_neg Bool.false_ne_true, Console.position, Console.position,
      hIdx]
    simp only [Arrow.place, Option.getD_some, Option.getD_none]
    omega

end Console

/-! Walks. -/

section Walks
variable (history : List (List Char)) (d : Draft) (keys : List Arrow)

/-- The console behind the first `n` arrows. -/
abbrev consoleAt (n : Nat) : Console := stateAt Console.handleArrow (Console.live history d) keys n

/-- A walk through the history loses nothing. -/
structure KeepsDraft : Prop where
  /-- When a walk that began at a live draft is back, the draft is as it was. -/
  back : ∀ m n, m + 1 < n → (consoleAt history d keys m).historyIdx = none →
    (∀ k, m < k → k < n → (consoleAt history d keys k).historyIdx ≠ none) →
    (consoleAt history d keys n).historyIdx = none →
    (consoleAt history d keys n).input = (consoleAt history d keys m).input ∧
      (consoleAt history d keys n).cursor = (consoleAt history d keys m).cursor
  /-- Down on the last line of the live draft changes nothing. -/
  still : ∀ n, keys[n]? = some .down → (consoleAt history d keys n).historyIdx = none →
    (consoleAt history d keys n).moveCursorVertical .down = none →
    consoleAt history d keys (n + 1) = consoleAt history d keys n
  /-- During a walk the entry at its place is shown. -/
  shown : ∀ n i, (consoleAt history d keys n).historyIdx = some i →
    i < history.length ∧ (consoleAt history d keys n).input = history.getD i []
  /-- Each arrow that does not move the cursor to another line moves the place of the walk by one,
  between the oldest entry and the live draft. -/
  clamped : ∀ n dir, keys[n]? = some dir →
    (consoleAt history d keys (n + 1)).position =
      if ((consoleAt history d keys n).moveCursorVertical dir).isSome then
        (consoleAt history d keys n).position
      else dir.place (consoleAt history d keys n).position history.length

variable {history d keys}

variable (history d) in
theorem consoleAt_sound (n : Nat) :
    (consoleAt history d keys n).Sound ∧ (consoleAt history d keys n).history = history := by
  have hKeeps : ∀ (s : Console) dir, s.Sound ∧ s.history = history → True →
      (s.handleArrow dir).Sound ∧ (s.handleArrow dir).history = history := by
    intro s dir hInv _
    have hStep := Console.handleArrow_step hInv.1 dir
    exact ⟨hStep.sound hInv.1, hStep.history.trans hInv.2⟩
  have hStart : (Console.live history d).Sound ∧ (Console.live history d).history = history :=
    ⟨Console.sound_live d.cursor_le rfl rfl, rfl⟩
  exact run_keeps hKeeps hStart (fun _ _ _ => trivial) n

variable (history d) in
theorem consoleAt_step {n : Nat} {dir : Arrow} (hKey : keys[n]? = some dir) :
    Console.ArrowStep (consoleAt history d keys n) dir (consoleAt history d keys (n + 1)) := by
  have hNext : consoleAt history d keys (n + 1) =
      (consoleAt history d keys n).handleArrow dir := stateAt_succ _ _ hKey
  rw [hNext]
  exact Console.handleArrow_step (consoleAt_sound history d n).1 dir

/-- All through a walk the console has the draft the walk began at. -/
theorem consoleAt_draft {m : Nat} (hLive : (consoleAt history d keys m).historyIdx = none) (len : Nat)
    (hWalk : ∀ k, m < k → k ≤ m + 1 + len → (consoleAt history d keys k).historyIdx ≠ none) :
    (consoleAt history d keys (m + 1 + len)).historyDraft =
      some ((consoleAt history d keys m).input, (consoleAt history d keys m).cursor) := by
  induction len with
  | zero =>
    have hAway := hWalk (m + 1) (Nat.lt_succ_self m) (Nat.le_refl _)
    cases hKey : keys[m]? with
    | none =>
      rw [consoleAt, stateAt_end _ _ hKey] at hAway
      exact absurd hLive hAway
    | some dir =>
      rw [Nat.add_zero]
      generalize hNext : consoleAt history d keys (m + 1) = t at hAway
      have hStep := consoleAt_step history d hKey
      rw [hNext] at hStep
      cases hStep with
      | vertical => exact absurd hLive hAway
      | nowhere => exact absurd hLive hAway
      | begins => rfl
      | clears => exact absurd rfl hAway
      | walks _ hIdx =>
        rw [hLive] at hIdx
        cases hIdx
      | returns => exact absurd rfl hAway
  | succ len ih =>
    have hBefore := ih fun k hk hle => hWalk k hk (by omega)
    have hHere := hWalk (m + 1 + len) (by omega) (by omega)
    have hAway := hWalk (m + 1 + len + 1) (by omega) (by omega)
    rw [← Nat.add_assoc]
    cases hKey : keys[m + 1 + len]? with
    | none =>
      rw [consoleAt, stateAt_end _ _ hKey]
      exact hBefore
    | some dir =>
      generalize hNext : consoleAt history d keys (m + 1 + len + 1) = t at hAway
      have hStep := consoleAt_step history d hKey
      rw [hNext] at hStep
      cases hStep with
      | vertical => exact hBefore
      | nowhere => exact hBefore
      | begins _ _ hIdx => exact absurd hIdx hHere
      | clears => exact absurd rfl hAway
      | walks => exact hBefore
      | returns => exact absurd rfl hAway

/-- A walk that is back shows the draft it began at. -/
theorem consoleAt_back {m n : Nat} (hmn : m + 1 < n)
    (hLive : (consoleAt history d keys m).historyIdx = none)
    (hWalk : ∀ k, m < k → k < n → (consoleAt history d keys k).historyIdx ≠ none)
    (hBack : (consoleAt history d keys n).historyIdx = none) :
    (consoleAt history d keys n).input = (consoleAt history d keys m).input ∧
      (consoleAt history d keys n).cursor = (consoleAt history d keys m).cursor := by
  obtain ⟨len, rfl⟩ : ∃ len, n = m + 1 + len + 1 := ⟨n - m - 2, by omega⟩
  have hDraft := consoleAt_draft hLive len fun k hk hle => hWalk k hk (by omega)
  have hHere := hWalk (m + 1 + len) (by omega) (by omega)
  cases hKey : keys[m + 1 + len]? with
  | none =>
    rw [consoleAt, stateAt_end _ _ hKey] at hBack
    exact absurd hBack hHere
  | some dir =>
    generalize hNext : consoleAt history d keys (m + 1 + len + 1) = t at hBack
    have hStep := consoleAt_step history d hKey
    rw [hNext] at hStep
    cases hStep with
    | vertical => exact absurd hBack hHere
    | nowhere => exact absurd hBack hHere
    | begins => cases hBack
    | clears _ _ hIdx => exact absurd hIdx hHere
    | walks => cases hBack
    | returns _ _ _ hSaved =>
      rw [hDraft] at hSaved
      obtain ⟨hInput, hCursor⟩ := Prod.mk.inj (Option.some.inj hSaved)
      exact ⟨hInput.symm, hCursor.symm⟩

/-- Down on the live draft changes nothing exactly when there is no history or nothing is typed. -/
theorem consoleAt_still {n : Nat} (hKey : keys[n]? = some .down)
    (hLive : (consoleAt history d keys n).historyIdx = none)
    (hLine : (consoleAt history d keys n).moveCursorVertical .down = none) :
    consoleAt history d keys (n + 1) = consoleAt history d keys n ↔
      history = [] ∨ (consoleAt history d keys n).input = [] := by
  obtain ⟨hSound, hHistory⟩ := consoleAt_sound history d n
  generalize hNext : consoleAt history d keys (n + 1) = t
  have hStep := consoleAt_step history d hKey
  rw [hNext] at hStep
  generalize consoleAt history d keys n = s at *
  cases hStep with
  | vertical hMoved =>
    rw [hLine] at hMoved
    cases hMoved
  | nowhere _ hEmpty =>
    simp only [true_iff]
    exact .inl (hHistory.symm.trans hEmpty)
  | clears _ hSome _ =>
    constructor
    · intro hEq
      exact .inr (congrArg Console.input hEq).symm
    · intro hEmpty
      rcases hEmpty with hNone | hInput
      · exact absurd (hHistory.trans hNone) hSome
      · -- an empty draft has its cursor at 0 and no draft saved
        have hCursor := hSound.cursor_le
        rw [hInput] at hCursor
        have hDraft := hSound.live hLive
        cases s
        simp_all
  | walks _ hIdx =>
    rw [hLive] at hIdx
    cases hIdx
  | returns _ hIdx =>
    rw [hLive] at hIdx
    cases hIdx

/-- Along every run of Up and Down from a live draft nothing is lost exactly when Down is not pressed on
the last line of a live draft, unless there is no history or nothing is typed. -/
theorem history_kept (history : List (List Char)) (d : Draft) (keys : List Arrow) :
    KeepsDraft history d keys ↔
      ∀ n, keys[n]? = some .down → (consoleAt history d keys n).historyIdx = none →
        (consoleAt history d keys n).moveCursorVertical .down = none →
          history = [] ∨ (consoleAt history d keys n).input = [] := by
  constructor
  · intro h n hKey hLive hLine
    exact (consoleAt_still hKey hLive hLine).mp (h.still n hKey hLive hLine)
  · intro hOk
    refine ⟨?_, ?_, ?_, ?_⟩
    · exact fun m n hmn hLive hWalk hBack => consoleAt_back hmn hLive hWalk hBack
    · intro n hKey hLive hLine
      exact (consoleAt_still hKey hLive hLine).mpr (hOk n hKey hLive hLine)
    · intro n i hIdx
      obtain ⟨hSound, hHistory⟩ := consoleAt_sound history d n
      obtain ⟨hi, hInput, -⟩ := hSound.walk i hIdx
      rw [hHistory] at hi hInput
      exact ⟨hi, hInput⟩
    · intro n dir hKey
      obtain ⟨hSound, hHistory⟩ := consoleAt_sound history d n
      have hPlace := (consoleAt_step history d hKey).position hSound
      rwa [hHistory] at hPlace

/-- A letter is typed behind a submitted input, and Down is pressed: the letter is gone. -/
theorem history_not_kept :
    (Console.live [['1']] ⟨['x'], 1, Nat.le_refl 1⟩).handleArrow .down =
        ⟨[], 0, [['1']], none, none⟩ ∧
      ¬ KeepsDraft [['1']] ⟨['x'], 1, Nat.le_refl 1⟩ [.down] := by
  refine ⟨by rfl, ?_⟩
  intro h
  have hInput := congrArg Console.input (h.still 0 rfl rfl rfl)
  cases hInput

end Walks

/-! Every key. -/

namespace Console
variable {s : Console}

theorem Sound.edited (h : s.Sound) : s.edited.Sound := sound_live h.cursor_le rfl rfl

theorem Sound.insertAt (h : s.Sound) (c : Char) : (s.insertAt c).Sound := by
  rw [Console.insertAt]
  split
  · refine sound_live ?_ rfl rfl
    show s.cursor + 1 ≤ (s.input.insertIdx s.cursor c).length
    rw [List.length_insertIdx_of_le_length h.cursor_le]
    exact Nat.succ_le_succ h.cursor_le
  · exact h.edited

/-- Every key keeps the cursor in the input and the walk in the history. -/
theorem Sound.handleKey (h : s.Sound) (k : ConsoleKey) : (s.handleKey k).Sound := by
  have hCursor := h.cursor_le
  cases k with
  | char c =>
    rw [Console.handleKey]
    split
    · exact h
    · exact h.insertAt c
  | enter shift =>
    cases shift with
    | true => exact h.insertAt '\n'
    | false =>
      rw [Console.handleKey]
      split
      · exact sound_live (Nat.le_refl 0) rfl rfl
      · exact h.insertAt '\n'
  | back =>
    rw [Console.handleKey]
    split
    · next hPos =>
      refine sound_live ?_ rfl rfl
      show s.cursor - 1 ≤ (s.input.eraseIdx (s.cursor - 1)).length
      rw [List.length_eraseIdx_of_lt (by omega)]
      omega
    · exact h.edited
  | delete =>
    rw [Console.handleKey]
    split
    · next hLt =>
      refine sound_live ?_ rfl rfl
      show s.cursor ≤ (s.input.eraseIdx s.cursor).length
      rw [List.length_eraseIdx_of_lt hLt]
      omega
    · exact h.edited
  | left =>
    rw [Console.handleKey]
    split
    · exact h.at (by omega)
    · exact h
  | right =>
    rw [Console.handleKey]
    split
    · exact h.at (by omega)
    · exact h
  | home ctrl =>
    cases ctrl with
    | true => exact h.at (Nat.zero_le _)
    | false => exact h.at ((logicalLineStart_le _ _).trans hCursor)
  | end_ ctrl =>
    cases ctrl with
    | true => exact h.at (Nat.le_refl _)
    | false => exact h.at (logicalLineEnd_bounds hCursor).2
  | arrow dir => exact (handleArrow_step h dir).sound h
  | clearInput => exact sound_live (Nat.le_refl 0) rfl rfl

/-- Whatever keys were pressed before, a console without a walk is one in which a draft is typed. -/
theorem reached_live (keys : List ConsoleKey) (n : Nat)
    (hLive : (stateAt Console.handleKey empty keys n).historyIdx = none) :
    ∃ history d, stateAt Console.handleKey empty keys n = live history d := by
  have hKeeps : ∀ (s : Console) k, s.Sound → True → (s.handleKey k).Sound := fun _ k h _ => h.handleKey k
  have hStart : empty.Sound := sound_live (Nat.le_refl 0) rfl rfl
  have hSound : (stateAt Console.handleKey empty keys n).Sound :=
    run_keeps hKeeps hStart (fun _ _ _ => trivial) n
  generalize stateAt Console.handleKey empty keys n = s at hLive hSound
  refine ⟨s.history, ⟨s.input, s.cursor, hSound.cursor_le⟩, ?_⟩
  have hDraft := hSound.live hLive
  cases s
  simp_all [live]

end Console
end FactorForth.Gui
