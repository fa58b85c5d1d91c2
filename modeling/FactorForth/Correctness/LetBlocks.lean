import FactorForth.Correctness.LetLayout
import FactorForth.Correctness.LetSentences
import FactorForth.Correctness.LexText

/-! Where a LET block ends: the scan of the outer lexer against the tokens of the LET lexer. -/

namespace FactorForth.Correctness.LetForms
open FactorForth.Library FactorForth.Compiler.LetLang
open FactorForth.Compiler (FloatLit lower Pos toLower_of_not_upper)
open FactorForth.Compiler.Lex (LetScan findLetEnd isBlank nextIsBlankOrEof isLetBlank endsInBlankByte
  isEndWord readUntil nextToken wordToken letToken Cursor findLetEnd_text)

/-- Where the outer scan stands between two pieces. -/
inductive Stage where
  | start
  | word
  | paren
deriving DecidableEq

def blankFirst : List Piece → Bool
  | .blank _ :: _ => true
  | _ => false

/-- An opening parenthesis between blanks begins what the outer scan takes for a comment. -/
def Stage.step : Stage → Piece → List Piece → Stage
  | .paren, .token .rParen _, _ => .start
  | .paren, _, _ => .paren
  | .start, .token .lParen _, behind => if blankFirst behind then .paren else .word
  | _, .token _ _, _ => .word
  | _, _, _ => .start

/-- The stage behind some pieces, with others to follow. -/
def Stage.after : Stage → List Piece → List Piece → Stage
  | s, [], _ => s
  | s, x :: ps, behind => (s.step x (ps ++ behind)).after ps behind

/-- The words of a line, as the outer scan parts them. -/
def isScanBlank (c : Char) : Bool := isLetBlank c || endsInBlankByte c

/-- A comment that the outer scan does not see as one, since it is glued to a word or stands between
parentheses, has nothing in it that the scan would act on. -/
def clear : Stage → List Piece → Bool
  | _, [] => true
  | s, x :: ps =>
    (match s, x with
      | .word, .comment text => !text.contains '(' && (text.splitOnP isScanBlank).all fun w => !isEndWord w
      | .paren, .comment text => !text.contains ')'
      | _, _ => true) && clear (s.step x ps) ps

/-- An END that begins a word outside `( … )`, with a blank or nothing behind it. -/
structure StandsAlone (s : Stage) (ps front : List Piece) (w : List Char) (behind : List Piece) :
    Prop where
  split : ps = front ++ .token .endKw w :: behind
  starts : s.after front (.token .endKw w :: behind) = .start
  stops : behind = [] ∨ blankFirst behind = true

/-- The pieces through the first END that stands alone, and those behind it. -/
def untilEnd : Stage → List Piece → Option (List Piece × List Piece)
  | _, [] => none
  | s, x :: ps =>
    if s = .start ∧ x.tok? = some .endKw ∧ (ps = [] ∨ blankFirst ps = true) then some ([x], ps)
    else (untilEnd (s.step x ps) ps).map fun r => (x :: r.1, r.2)

/-! The outer scan, a character at a time. -/

/-- A scan's result behind some text. -/
def before (u : List Char) (r : Option (List Char × List Char)) : Option (List Char × List Char) :=
  r.map fun r => (u ++ r.1, r.2)

theorem before_append (u v : List Char) (r : Option (List Char × List Char)) :
    before (u ++ v) r = before u (before v r) := by
  cases r with
  | none => rfl
  | some r => exact congrArg some (congrArg (·, r.2) (List.append_assoc ..))

theorem before_nil (r : Option (List Char × List Char)) : before [] r = r := by
  cases r <;> rfl

theorem before_cons (c : Char) (u : List Char) (r : Option (List Char × List Char)) :
    before (c :: u) r = before [c] (before u r) := before_append [c] u r

section Steps
variable {c : Char} {w cs : List Char}

theorem scan_blank_blank (h : isLetBlank c = true) :
    findLetEnd .blank (c :: cs) = before [c] (findLetEnd .blank cs) := by
  simp only [findLetEnd, h, Bool.true_or, if_true]
  rfl

theorem scan_blank_byte (h : endsInBlankByte c = true) :
    findLetEnd .blank (c :: cs) = before [c] (findLetEnd .blank cs) := by
  simp only [findLetEnd, h, Bool.or_true, if_true]
  rfl

theorem scan_word_byte (h : isLetBlank c = false) (h' : endsInBlankByte c = true) :
    findLetEnd (.word w) (c :: cs) = before [c] (findLetEnd .blank cs) := by
  simp only [findLetEnd, h, h', Bool.false_eq_true, if_false, if_true]
  rfl

theorem scan_word_blank (h : isLetBlank c = true) (hEnd : isEndWord w = false) :
    findLetEnd (.word w) (c :: cs) = before [c] (findLetEnd .blank cs) := by
  simp only [findLetEnd, h, if_true, hEnd, Bool.false_eq_true, if_false]
  rfl

theorem scan_word_end (h : isLetBlank c = true) (hEnd : isEndWord w = true) :
    findLetEnd (.word w) (c :: cs) = some ([], c :: cs) := by
  simp only [findLetEnd, h, if_true, hEnd]

theorem scan_word_char (h : isLetBlank c = false) (h' : endsInBlankByte c = false) :
    findLetEnd (.word w) (c :: cs) = before [c] (findLetEnd (.word (w ++ [c])) cs) := by
  simp only [findLetEnd, h, h', Bool.false_eq_true, if_false]
  rfl

theorem scan_paren_char (h : c ≠ ')') :
    findLetEnd .paren (c :: cs) = before [c] (findLetEnd .paren cs) := by
  simp only [findLetEnd, h, if_false]
  rfl

theorem scan_paren_close : findLetEnd .paren (')' :: cs) = before [')'] (findLetEnd .blank cs) := rfl

theorem scan_blank_open (h : cs.head?.any isLetBlank = true) :
    findLetEnd .blank ('(' :: cs) = before ['('] (findLetEnd .paren cs) := by
  have hBlank : (isLetBlank '(' || endsInBlankByte '(') = false := by decide
  simp only [findLetEnd, hBlank, h, Bool.false_eq_true, if_false]
  rfl

theorem scan_blank_slash (h : cs.isEmpty || cs.head?.any isLetBlank) :
    findLetEnd .blank ('\\' :: cs) = before ['\\'] (findLetEnd .line cs) := by
  have hBlank : (isLetBlank '\\' || endsInBlankByte '\\') = false := by decide
  simp only [findLetEnd, hBlank, h, Bool.false_eq_true, if_false]
  rfl

theorem scan_blank_char (hBlank : isLetBlank c = false) (hByte : endsInBlankByte c = false)
    (hSlash : ¬ (c = '\\' ∧ (cs.isEmpty || cs.head?.any isLetBlank) = true))
    (hOpen : ¬ (c = '(' ∧ cs.head?.any isLetBlank = true)) :
    findLetEnd .blank (c :: cs) = before [c] (findLetEnd (.word [c]) cs) := by
  have hSlash' : (decide (c = '\\') && (cs.isEmpty || cs.head?.any isLetBlank)) = false := by
    refine Bool.eq_false_iff.mpr fun h => hSlash ?_
    exact (Bool.and_eq_true_iff.mp h).imp_left of_decide_eq_true
  have hOpen' : (decide (c = '(') && cs.head?.any isLetBlank) = false := by simpa using hOpen
  simp only [findLetEnd, hBlank, hByte, hSlash', hOpen', Bool.or_false, Bool.false_eq_true, if_false]
  rfl

end Steps

theorem scan_word_text {u : List Char} (h : ∀ d ∈ u, Solid d) (w cs : List Char) :
    findLetEnd (.word w) (u ++ cs) = before u (findLetEnd (.word (w ++ u)) cs) := by
  induction u generalizing w with
  | nil => rw [List.append_nil, before_nil, List.nil_append]
  | cons c u ih =>
    have hc := h c List.mem_cons_self
    rw [List.cons_append, scan_word_char hc.1 hc.2.1, ih fun d hd => h d (List.mem_cons_of_mem _ hd),
      ← before_append, List.append_assoc]
    rfl

theorem scan_paren_text {u : List Char} (h : ')' ∉ u) (cs : List Char) :
    findLetEnd .paren (u ++ cs) = before u (findLetEnd .paren cs) := by
  induction u with
  | nil => exact (before_nil _).symm
  | cons c u ih =>
    rw [List.mem_cons, not_or] at h
    rw [List.cons_append, scan_paren_char (Ne.symm h.1), ih h.2, ← before_append]
    rfl

theorem scan_line (cs : List Char) :
    findLetEnd .line cs = before (throughLine cs).1 (findLetEnd .blank (throughLine cs).2) := by
  induction cs with
  | nil => rfl
  | cons c cs ih =>
    rw [throughLine]
    by_cases h : c = '\n'
    · subst h
      rfl
    · rw [if_neg h]
      dsimp only
      rw [before_cons, ← ih]
      simp only [findLetEnd, h, if_false]
      rfl

/-! A line that the outer scan reads as words. -/

/-- None of the words is END, with the beginning of the first one in front. -/
def Quiet (w l : List Char) : Prop := ∀ x ∈ (w ++ l).splitOnP isScanBlank, isEndWord x = false

section Quiet
variable {c : Char} {w l : List Char}

theorem Quiet.nil (hw : ∀ d ∈ w, isScanBlank d = false) (h : Quiet w []) : isEndWord w = false := by
  apply h
  rw [List.append_nil, List.splitOnP_eq_singleton hw]
  exact List.mem_singleton_self w

theorem Quiet.blank (hw : ∀ d ∈ w, isScanBlank d = false) (hc : isScanBlank c = true)
    (h : Quiet w (c :: l)) : isEndWord w = false ∧ Quiet [] l := by
  have hSplit := List.splitOnP_append_cons_of_forall_mem hw c hc l
  unfold Quiet at h
  rw [hSplit] at h
  exact ⟨h w List.mem_cons_self, fun x hx => h x (List.mem_cons_of_mem _ hx)⟩

theorem Quiet.char (h : Quiet w (c :: l)) : Quiet (w ++ [c]) l := by
  unfold Quiet
  rwa [List.append_assoc]

end Quiet

theorem scan_quiet (cs : List Char) (hOpen : '(' ∉ (throughLine cs).1) :
    (Quiet [] (throughLine cs).1 → findLetEnd .blank cs =
      before (throughLine cs).1 (findLetEnd .blank (throughLine cs).2)) ∧
    ∀ w, (∀ d ∈ w, isScanBlank d = false) → Quiet w (throughLine cs).1 → findLetEnd (.word w) cs =
      before (throughLine cs).1 (findLetEnd .blank (throughLine cs).2) := by
  have hNone : ∀ d ∈ ([] : List Char), isScanBlank d = false := fun _ hd => absurd hd List.not_mem_nil
  induction cs with
  | nil =>
    refine ⟨fun _ => rfl, fun w hw h => ?_⟩
    simp only [findLetEnd, h.nil hw]
    rfl
  | cons c cs ih =>
    rw [throughLine] at hOpen ⊢
    by_cases hEnd : c = '\n'
    · subst hEnd
      refine ⟨fun _ => scan_blank_blank rfl, fun w hw h => ?_⟩
      exact scan_word_blank rfl (h.blank hw rfl).1
    · rw [if_neg hEnd] at hOpen ⊢
      rw [List.mem_cons, not_or] at hOpen
      obtain ⟨ihBlank, ihWord⟩ := ih hOpen.2
      dsimp only
      rw [before_cons]
      by_cases hBlank : isLetBlank c = true
      · have hc : isScanBlank c = true := Bool.or_eq_true_iff.mpr (.inl hBlank)
        refine ⟨fun h => ?_, fun w hw h => ?_⟩
        · rw [scan_blank_blank hBlank, ihBlank (h.blank hNone hc).2]
        · rw [scan_word_blank hBlank (h.blank hw hc).1, ihBlank (h.blank hw hc).2]
      · rw [Bool.not_eq_true] at hBlank
        by_cases hByte : endsInBlankByte c = true
        · have hc : isScanBlank c = true := Bool.or_eq_true_iff.mpr (.inr hByte)
          refine ⟨fun h => ?_, fun w hw h => ?_⟩
          · rw [scan_blank_byte hByte, ihBlank (h.blank hNone hc).2]
          · rw [scan_word_byte hBlank hByte, ihBlank (h.blank hw hc).2]
        · rw [Bool.not_eq_true] at hByte
          have hc : isScanBlank c = false := Bool.or_eq_false_iff.mpr ⟨hBlank, hByte⟩
          refine ⟨fun h => ?_, fun w hw h => ?_⟩
          · by_cases hSlash : c = '\\' ∧ (cs.isEmpty || cs.head?.any isLetBlank) = true
            · rw [hSlash.1, scan_blank_slash hSlash.2, scan_line]
            · rw [scan_blank_char hBlank hByte hSlash fun hParen => hOpen.1 hParen.1.symm]
              rw [ihWord [c] (by simpa using hc) h.char]
          · rw [scan_word_char hBlank hByte, ihWord (w ++ [c]) ?_ h.char]
            intro d hd
            rcases List.mem_append.mp hd with hd | hd
            · exact hw d hd
            · rwa [List.mem_singleton.mp hd]

/-! The pieces against the scan. -/

theorem Laid.blankFirst {ps : List Piece} {cs : List Char} (h : Laid ps cs) :
    blankFirst ps = cs.head?.any isLetBlank := by
  have hBlank : ∀ c, isBlank c = true → isLetBlank c = true := by
    intro c hc
    rcases isBlank_cases hc with rfl | rfl | rfl | rfl <;> rfl
  cases h with
  | nil => rfl
  | blank h hRest => exact (hBlank _ h).symm
  | comment h hRest => rfl
  | @token t u cs ps h hRest =>
    obtain ⟨c, u, rfl⟩ := List.exists_cons_of_ne_nil h.ne_nil
    exact (h.solid c List.mem_cons_self).1.symm

/-- A scanned word is not END where a blank or nothing follows, and cannot become it. -/
def Settled (w cs : List Char) : Prop :=
  (∃ c ∈ w, isLetter c = false) ∨
    (∀ d ∈ cs.head?, identChar d = false) ∧ (isEndWord w = true → ∃ c ∈ cs.head?, isLetBlank c = false)

/-- The state that the outer scan is in at a stage, with the text to come. -/
inductive Standing : Stage → LetScan → List Char → Prop where
  | start {cs : List Char} : Standing .start .blank cs
  | word {w cs : List Char} (h : Settled w cs) (hSolid : ∀ d ∈ w, isScanBlank d = false) :
      Standing .word (.word w) cs
  | paren {cs : List Char} : Standing .paren .paren cs

theorem not_end_of_char {w : List Char} (h : ∃ c ∈ w, isLetter c = false) : isEndWord w = false := by
  obtain ⟨c, hc, hLetter⟩ := h
  refine Bool.eq_false_iff.mpr fun hEnd => ?_
  rw [isEndWord_letters hEnd c hc] at hLetter
  cases hLetter

theorem Settled.stop {w cs : List Char} (h : Settled w cs) (hStop : cs.head?.all isLetBlank = true) :
    isEndWord w = false := by
  rcases h with h | ⟨-, h⟩
  · exact not_end_of_char h
  · refine Bool.eq_false_iff.mpr fun hEnd => ?_
    obtain ⟨c, hc, hBlank⟩ := h hEnd
    rw [Option.mem_def.mp hc] at hStop
    rw [show isLetBlank c = true from hStop] at hBlank
    cases hBlank

/-- A token glued to the word goes on with it. -/
theorem Settled.token {w u cs : List Char} {t : Tok} (h : Settled w (u ++ cs)) (hTok : TokenText t u cs) :
    Settled (w ++ u) cs := by
  rcases hTok.fence with ⟨d, hd, hLetter⟩ | hFence
  · exact .inl ⟨d, List.mem_append_right _ hd, hLetter⟩
  · refine .inr ⟨hFence, fun hEnd => ?_⟩
    obtain ⟨c, u, rfl⟩ := List.exists_cons_of_ne_nil hTok.ne_nil
    have hLetters := isEndWord_letters hEnd
    rcases h with ⟨d, hd, hLetter⟩ | ⟨hHead, -⟩
    · rw [hLetters d (List.mem_append_left _ hd)] at hLetter
      cases hLetter
    · have hc := hLetters c (List.mem_append_right _ List.mem_cons_self)
      have hIdent : identChar c = true := by simp [identChar, identStart, hc]
      rw [hHead c rfl] at hIdent
      cases hIdent

def texts (r : List Piece × List Piece) : List Char × List Char := (textOf r.1, textOf r.2)

theorem untilEnd_step {s : Stage} {x : Piece} {ps : List Piece} {scan scan' : LetScan} {cs : List Char}
    (hGlued : ¬ (s = .start ∧ x.tok? = some .endKw ∧ (ps = [] ∨ LetForms.blankFirst ps = true)))
    (hScan : findLetEnd scan (x.text ++ cs) = before x.text (findLetEnd scan' cs))
    (hRest : findLetEnd scan' cs = (untilEnd (s.step x ps) ps).map texts) :
    findLetEnd scan (x.text ++ cs) = (untilEnd s (x :: ps)).map texts := by
  rw [hScan, hRest, untilEnd, if_neg hGlued]
  cases untilEnd (s.step x ps) ps <;> rfl

theorem scanBlank_of_solid {u : List Char} (h : ∀ d ∈ u, Solid d) : ∀ d ∈ u, isScanBlank d = false :=
  fun d hd => Bool.or_eq_false_iff.mpr ⟨(h d hd).1, (h d hd).2.1⟩

/-- A comment glued to a word, which the outer scan reads as words. -/
theorem scan_glued {w cs : List Char} (hNext : nextIsBlankOrEof cs = true)
    (hSolid : ∀ d ∈ w, isScanBlank d = false) {ps : List Piece}
    (hClear : clear .word (.comment ('\\' :: (throughLine cs).1) :: ps) = true) :
    findLetEnd (.word w) ('\\' :: cs) =
      before ('\\' :: (throughLine cs).1) (findLetEnd .blank (throughLine cs).2) := by
  simp only [clear, Bool.and_eq_true, Bool.not_eq_true', List.all_eq_true, List.contains_eq_mem,
    decide_eq_false_iff_not] at hClear
  obtain ⟨⟨hOpen, hWords⟩, -⟩ := hClear
  have hWord : ∀ d ∈ w ++ ['\\'], isScanBlank d = false := by
    intro d hd
    rcases List.mem_append.mp hd with hd | hd
    · exact hSolid d hd
    · rw [List.mem_singleton.mp hd]
      decide
  have hSlash : isEndWord (w ++ ['\\']) = false :=
    not_end_of_char ⟨'\\', List.mem_append_right _ List.mem_cons_self, by decide⟩
  have hQuiet : Quiet (w ++ ['\\']) (throughLine cs).1 := by
    unfold Quiet
    generalize hLine : (throughLine cs).1 = l at hWords
    cases l with
    | nil =>
      rw [List.append_nil, List.splitOnP_eq_singleton hWord]
      exact fun x hx => List.mem_singleton.mp hx ▸ hSlash
    | cons b l =>
      have hBlank : isScanBlank b = true := by
        cases cs with
        | nil => cases hLine
        | cons c cs =>
          have hHead : c = b := by
            rw [throughLine] at hLine
            split at hLine <;> exact (List.cons.inj hLine).1
          rcases isBlank_cases (hHead ▸ hNext : isBlank b = true) with rfl | rfl | rfl | rfl <;> rfl
      rw [List.splitOnP_append_cons_of_forall_mem hWord b hBlank]
      have hWordSlash : ∀ c ∈ ['\\'], isScanBlank c = false := List.forall_mem_singleton.mpr (by decide)
      have hSplit := List.splitOnP_append_cons_of_forall_mem hWordSlash b hBlank l
      rw [List.singleton_append] at hSplit
      rw [hSplit] at hWords
      exact List.forall_mem_cons.mpr ⟨hSlash, fun x hx => hWords x (List.mem_cons_of_mem _ hx)⟩
  rw [scan_word_char (by decide) (by decide), before_cons _ (throughLine cs).1,
    (scan_quiet cs fun h => hOpen (List.mem_cons_of_mem _ h)).2 _ hWord hQuiet]

/-- A token where a word may begin, which is no parenthesis between blanks. -/
theorem scan_start_token {t : Tok} {u cs : List Char} (h : TokenText t u cs)
    (hOpen : t = .lParen → ¬ cs.head?.any isLetBlank = true) :
    findLetEnd .blank (u ++ cs) = before u (findLetEnd (.word u) cs) := by
  have hSolid := h.solid
  obtain ⟨c, v, rfl⟩ := List.exists_cons_of_ne_nil h.ne_nil
  have hc := hSolid c List.mem_cons_self
  have hChar : findLetEnd .blank (c :: (v ++ cs)) = before [c] (findLetEnd (.word [c]) (v ++ cs)) := by
    refine scan_blank_char hc.1 hc.2.1 (fun hSlash => hc.2.2 hSlash.1) ?_
    rintro ⟨rfl, hBlank⟩
    have hTok := h.parens.1.mpr List.mem_cons_self
    obtain rfl := (List.cons.inj (h.parens.2.2.1 hTok)).2
    exact hOpen hTok hBlank
  rw [List.cons_append, hChar, scan_word_text fun d hd => hSolid d (List.mem_cons_of_mem _ hd),
    ← before_cons]
  rfl

theorem scan_laid {ps : List Piece} {cs : List Char} (h : Laid ps cs) {s : Stage} {scan : LetScan}
    (hStanding : Standing s scan cs) (hClear : clear s ps = true) :
    findLetEnd scan cs = (untilEnd s ps).map texts := by
  induction h generalizing s scan with
  | nil =>
    cases hStanding with
    | start => rfl
    | word h hSolid =>
      simp only [findLetEnd, h.stop rfl]
      rfl
    | paren => rfl
  | @blank c ps cs h hRest ih =>
    have hBlank : isLetBlank c = true := by
      rcases isBlank_cases h with rfl | rfl | rfl | rfl <;> rfl
    have hLater := (Bool.and_eq_true_iff.mp hClear).2
    have hTok : ¬ (s = .start ∧ (Piece.blank c).tok? = some .endKw ∧
      (ps = [] ∨ LetForms.blankFirst ps = true)) := fun h => by cases h.2.1
    cases hStanding with
    | start => exact untilEnd_step hTok (scan_blank_blank hBlank) (ih .start hLater)
    | word h hSolid => exact untilEnd_step hTok (scan_word_blank hBlank (h.stop hBlank)) (ih .start hLater)
    | paren =>
      refine untilEnd_step hTok (scan_paren_char ?_) (ih .paren hLater)
      rintro rfl
      cases hBlank
  | @comment ps cs h hRest ih =>
    have hLater := (Bool.and_eq_true_iff.mp hClear).2
    have hTok : ¬ (s = .start ∧ (Piece.comment ('\\' :: (throughLine cs).1)).tok? = some .endKw ∧
      (ps = [] ∨ LetForms.blankFirst ps = true)) := fun h => by cases h.2.1
    have hText : '\\' :: cs = '\\' :: (throughLine cs).1 ++ (throughLine cs).2 :=
      congrArg ('\\' :: ·) (throughLine_text cs).symm
    rw [hText]
    cases hStanding with
    | start =>
      refine untilEnd_step hTok (x := .comment _) ?_ (ih .start hLater)
      have hBlank : (cs.isEmpty || cs.head?.any isLetBlank) = true := by
        cases cs with
        | nil => rfl
        | cons c cs => rcases isBlank_cases h with rfl | rfl | rfl | rfl <;> rfl
      show findLetEnd _ ('\\' :: (throughLine cs).1 ++ (throughLine cs).2) = before ('\\' :: _) _
      rw [← hText, scan_blank_slash hBlank, scan_line, before_cons _ (throughLine cs).1]
    | word hSettled hSolid =>
      refine untilEnd_step hTok (x := .comment _) ?_ (ih .start hLater)
      show findLetEnd _ ('\\' :: (throughLine cs).1 ++ (throughLine cs).2) = before ('\\' :: _) _
      rw [← hText]
      exact scan_glued h hSolid hClear
    | paren =>
      refine untilEnd_step hTok (x := .comment _) (scan_paren_text ?_ _) (ih .paren hLater)
      show ')' ∉ '\\' :: (throughLine cs).1
      simpa using (Bool.and_eq_true_iff.mp hClear).1
  | @token t u cs ps h hRest ih =>
    have hLater := (Bool.and_eq_true_iff.mp hClear).2
    obtain ⟨hOpen, hClose, hOpenText, hCloseText⟩ := h.parens
    cases hStanding with
    | start =>
      by_cases hParen : t = .lParen ∧ LetForms.blankFirst ps = true
      · -- a parenthesis between blanks
        obtain ⟨rfl, hBlank⟩ := hParen
        obtain rfl := hOpenText rfl
        have hScan := scan_blank_open (hRest.blankFirst ▸ hBlank)
        refine untilEnd_step (x := .token .lParen ['(']) (fun h => by cases h.2.1) hScan (ih ?_ hLater)
        simp only [Stage.step, hBlank, if_true]
        exact .paren
      · have hScan := scan_start_token h fun hTok hBlank => hParen ⟨hTok, hRest.blankFirst.trans hBlank⟩
        have hStage : Stage.step .start (.token t u) ps = .word := by
          cases t with
          | lParen => exact if_neg fun hBlank => hParen ⟨rfl, hBlank⟩
          | _ => rfl
        by_cases hAlone : t = .endKw ∧ (ps = [] ∨ LetForms.blankFirst ps = true)
        · obtain ⟨rfl, hStop⟩ := hAlone
          have hEnd := h.end_iff.mp rfl
          have hFound : findLetEnd (.word u) cs = some ([], cs) := by
            cases cs with
            | nil => simp only [findLetEnd, hEnd, if_true]
            | cons c cs =>
              refine scan_word_end ?_ hEnd
              rcases hStop with rfl | hBlank
              · cases hRest.text
              · rwa [hRest.blankFirst] at hBlank
          rw [hScan, hFound, untilEnd, if_pos ⟨rfl, rfl, hStop⟩]
          show some (u ++ [], cs) = some (u ++ [], textOf ps)
          rw [hRest.text]
        · refine untilEnd_step (x := .token t u) ?_ hScan (ih ?_ hLater)
          · rintro ⟨-, hTok, hStop⟩
            exact hAlone ⟨Option.some.inj hTok, hStop⟩
          · rw [hStage]
            refine .word ?_ (scanBlank_of_solid h.solid)
            rcases h.fence with hLetter | hFence
            · exact .inl hLetter
            · refine .inr ⟨hFence, fun hEnd => ?_⟩
              have hStop := not_and.mp hAlone (h.end_iff.mpr hEnd)
              rw [not_or, hRest.blankFirst] at hStop
              cases cs with
              | nil => exact absurd hRest.eq_nil hStop.1
              | cons c cs => exact ⟨c, rfl, Bool.eq_false_iff.mpr hStop.2⟩
    | @word w _ hSettled hSolid =>
      have hStage : Stage.step .word (.token t u) ps = .word := by
        cases t <;> rfl
      refine untilEnd_step (x := .token t u) (fun h => by cases h.1) (scan_word_text h.solid w cs) (ih ?_ hLater)
      rw [hStage]
      refine .word (hSettled.token h) fun d hd => ?_
      rcases List.mem_append.mp hd with hd | hd
      · exact hSolid d hd
      · exact scanBlank_of_solid h.solid d hd
    | paren =>
      by_cases hParen : t = .rParen
      · subst hParen
        obtain rfl := hCloseText rfl
        exact untilEnd_step (x := .token .rParen [')']) (fun h => by cases h.1) scan_paren_close
          (ih .start hLater)
      · have hStage : Stage.step .paren (.token t u) ps = .paren := by
          cases t <;> first | rfl | exact absurd rfl hParen
        refine untilEnd_step (x := .token t u) (fun h => by cases h.1)
          (scan_paren_text (fun hc => hParen (hClose.mpr hc)) cs) (ih ?_ hLater)
        rw [hStage]
        exact .paren

/-! Cutting the text behind a block. -/

theorem before_eq_some {u : List Char} {r : Option (List Char × List Char)} {a b : List Char} :
    before u r = some (a, b) ↔ ∃ c, a = u ++ c ∧ r = some (c, b) := by
  cases r with
  | none => exact iff_of_false nofun nofun
  | some r =>
    constructor
    · rintro h
      cases h
      exact ⟨r.1, rfl, rfl⟩
    · rintro ⟨c, rfl, h⟩
      cases h
      rfl

/-- A step of the scan ends the block in front of a blank or reads on. -/
theorem scan_step (scan : LetScan) (c : Char) (cs : List Char) :
    (∃ w, scan = .word w ∧ isEndWord w = true ∧ isLetBlank c = true ∧
      findLetEnd scan (c :: cs) = some ([], c :: cs)) ∨
    ∃ scan', findLetEnd scan (c :: cs) = before [c] (findLetEnd scan' cs) := by
  cases scan with
  | blank =>
    simp only [findLetEnd]
    split_ifs <;> exact .inr ⟨_, rfl⟩
  | line =>
    simp only [findLetEnd]
    split_ifs <;> exact .inr ⟨_, rfl⟩
  | paren =>
    simp only [findLetEnd]
    split_ifs <;> exact .inr ⟨_, rfl⟩
  | word w =>
    by_cases hEnd : isLetBlank c = true ∧ isEndWord w = true
    · exact .inl ⟨w, rfl, hEnd.2, hEnd.1, scan_word_end hEnd.1 hEnd.2⟩
    · simp only [findLetEnd]
      split_ifs with hBlank hWord
      · exact absurd ⟨hBlank, hWord⟩ hEnd
      all_goals exact .inr ⟨_, rfl⟩

/-- Every scan but that of the word END reads on. -/
theorem scan_here {scan : LetScan} {cs rest : List Char} (h : findLetEnd scan cs = some ([], rest)) :
    ∃ w, scan = .word w ∧ isEndWord w = true := by
  cases cs with
  | nil =>
    cases scan with
    | word w =>
      simp only [findLetEnd] at h
      split at h
      · rename_i hEnd
        exact ⟨w, rfl, hEnd⟩
      · cases h
    | _ => cases h
  | cons c cs =>
    rcases scan_step scan c cs with ⟨w, hWord, hEnd, -, -⟩ | ⟨scan', hScan⟩
    · exact ⟨w, hWord, hEnd⟩
    · rw [hScan] at h
      obtain ⟨_, hNil, -⟩ := before_eq_some.mp h
      cases hNil

theorem findLetEnd_stop {scan : LetScan} {cs : List Char} {r : List Char × List Char}
    (h : findLetEnd scan cs = some r) : r.2.head?.all isLetBlank = true := by
  induction cs generalizing scan r with
  | nil =>
    cases scan with
    | word w =>
      simp only [findLetEnd] at h
      split at h <;> cases h
      rfl
    | _ => cases h
  | cons c cs ih =>
    rcases scan_step scan c cs with ⟨w, -, -, hBlank, hScan⟩ | ⟨scan', hScan⟩
    · rw [hScan] at h
      cases h
      exact hBlank
    · rw [hScan] at h
      obtain ⟨a, -, hLater⟩ := before_eq_some.mp h
      exact ih (r := (a, r.2)) hLater

/-- The scan of a block does not depend on what is behind the blank after it. -/
theorem scan_cut {scan : LetScan} {b rest : List Char} (hRest : rest.head?.all isLetBlank = true) :
    findLetEnd scan (b ++ rest) = some (b, rest) ↔ findLetEnd scan b = some (b, []) := by
  induction b generalizing scan with
  | nil =>
    constructor
    · intro h
      obtain ⟨w, rfl, hEnd⟩ := scan_here h
      simp only [findLetEnd, hEnd, if_true]
    · intro h
      obtain ⟨w, rfl, hEnd⟩ := scan_here h
      cases rest with
      | nil => exact h
      | cons c rest => exact scan_word_end hRest hEnd
  | cons c b ih =>
    have hKeep : ∀ scan', before [c] (findLetEnd scan' (b ++ rest)) = some (c :: b, rest) ↔
        before [c] (findLetEnd scan' b) = some (c :: b, []) := by
      intro scan'
      simp only [before_eq_some, List.singleton_append, List.cons.injEq, true_and,
        exists_eq_left', ih]
    rw [List.cons_append]
    cases scan with
    | line =>
      simp only [findLetEnd]
      split_ifs <;> exact hKeep _
    | paren =>
      simp only [findLetEnd]
      split_ifs <;> exact hKeep _
    | word w =>
      simp only [findLetEnd]
      split_ifs
      · exact iff_of_false (fun h => by cases h) fun h => by cases h
      all_goals exact hKeep _
    | blank =>
      cases b with
      | cons d b =>
        by_cases hBlank : isLetBlank c = true
        · rw [scan_blank_blank hBlank, scan_blank_blank hBlank]
          exact hKeep _
        · rw [Bool.not_eq_true] at hBlank
          by_cases hByte : endsInBlankByte c = true
          · rw [scan_blank_byte hByte, scan_blank_byte hByte]
            exact hKeep _
          · rw [Bool.not_eq_true] at hByte
            by_cases hNext : isLetBlank d = true ∧ (c = '\\' ∨ c = '(')
            · rcases hNext with ⟨hNext, rfl | rfl⟩
              · rw [@scan_blank_slash (d :: b ++ rest) hNext, @scan_blank_slash (d :: b) hNext]
                exact hKeep _
              · rw [@scan_blank_open (d :: b ++ rest) hNext, @scan_blank_open (d :: b) hNext]
                exact hKeep _
            · have hSlash : ¬ (c = '\\' ∧ isLetBlank d = true) := fun h => hNext ⟨h.2, .inl h.1⟩
              have hOpen : ¬ (c = '(' ∧ isLetBlank d = true) := fun h => hNext ⟨h.2, .inr h.1⟩
              rw [@scan_blank_char c (d :: b ++ rest) hBlank hByte hSlash hOpen,
                @scan_blank_char c (d :: b) hBlank hByte hSlash hOpen]
              exact hKeep _
      | nil =>
        -- one character alone is no END, whatever is behind it
        have hShort : ∀ r r', findLetEnd .blank (c :: r) ≠ some ([c], r') := by
          intro r r' h
          simp only [findLetEnd] at h
          split_ifs at h
          all_goals
            change before [c] _ = some ([c], r') at h
            obtain ⟨_, hNil, hLater⟩ := before_eq_some.mp h
            obtain rfl := (List.cons.inj hNil).2
            obtain ⟨w, hWord, hEnd⟩ := scan_here hLater
            cases hWord
          have hLength := congrArg (fun s => s.toList.length) (isEndWord_iff.mp hEnd)
          simp [lower] at hLength
        exact iff_of_false (hShort _ _) (hShort _ _)

/-! The pieces of a form. -/

theorem StandsAlone.cons {s : Stage} {x : Piece} {ps a b : List Piece} {w : List Char}
    (h : StandsAlone (s.step x ps) ps a w b) : StandsAlone s (x :: ps) (x :: a) w b where
  split := congrArg (x :: ·) h.split
  starts := by
    rw [Stage.after, ← h.split]
    exact h.starts
  stops := h.stops

theorem StandsAlone.of_cons {s : Stage} {x y : Piece} {ps a b : List Piece} {w : List Char}
    (h : StandsAlone s (x :: ps) (y :: a) w b) : StandsAlone (s.step x ps) ps a w b := by
  obtain ⟨hSplit, hStarts, hStops⟩ := h
  obtain ⟨rfl, rfl⟩ := List.cons.inj hSplit
  exact ⟨rfl, hStarts, hStops⟩

/-- The first END that stands alone is the one that is found. -/
theorem untilEnd_spec {s : Stage} {ps : List Piece} {r : List Piece × List Piece}
    (h : untilEnd s ps = some r) :
    ∃ a w, r.1 = a ++ [.token .endKw w] ∧ StandsAlone s ps a w r.2 ∧
      ∀ a' w' b', StandsAlone s ps a' w' b' → b'.length ≤ r.2.length := by
  induction ps generalizing s r with
  | nil => cases h
  | cons x ps ih =>
    rw [untilEnd] at h
    split at h
    · rename_i hAlone
      obtain ⟨rfl, hTok, hStops⟩ := hAlone
      obtain rfl := Option.some.inj h
      cases x with
      | token t w =>
        obtain rfl := Option.some.inj hTok
        refine ⟨[], w, rfl, ⟨rfl, rfl, hStops⟩, fun a' w' b' h' => ?_⟩
        have hLength := congrArg List.length h'.split
        simp only [List.length_cons, List.length_append] at hLength
        dsimp only
        omega
      | _ => cases hTok
    · rename_i hGlued
      obtain ⟨r', hFound, rfl⟩ := Option.map_eq_some_iff.mp h
      obtain ⟨a, w, hFront, hStands, hFirst⟩ := ih hFound
      refine ⟨x :: a, w, congrArg (x :: ·) hFront, hStands.cons, fun a' w' b' h' => ?_⟩
      cases a' with
      | nil =>
        obtain ⟨rfl, rfl⟩ := List.cons.inj h'.split
        exact absurd ⟨h'.starts, rfl, h'.stops⟩ hGlued
      | cons y a' => exact hFirst a' w' b' h'.of_cons

/-- Pieces without an END token are passed over. -/
theorem untilEnd_append {s : Stage} {a b : List Piece} (h : .endKw ∉ a.filterMap Piece.tok?) :
    untilEnd s (a ++ b) = (untilEnd (s.after a b) b).map fun r => (a ++ r.1, r.2) := by
  induction a generalizing s with
  | nil => exact Option.map_id'.symm
  | cons x a ih =>
    have hx : x.tok? ≠ some .endKw := by
      intro hTok
      rw [List.filterMap_cons_some hTok] at h
      exact h List.mem_cons_self
    have ha : .endKw ∉ a.filterMap Piece.tok? := fun hMem => h (by
      rw [List.filterMap_cons]
      split
      · exact hMem
      · exact List.mem_cons_of_mem _ hMem)
    rw [List.cons_append, untilEnd, if_neg fun hAlone => hx hAlone.2.1, ih ha, Option.map_map]
    rfl

/-- The scan is between parentheses only where the tokens leave one open. -/
theorem after_paren {s : Stage} {a b : List Piece} (h : s.after a b = .paren) {o : Bool}
    (ho : s = .paren → o = true) : leftOpen o (a.filterMap Piece.tok?) = true := by
  induction a generalizing s o with
  | nil => exact ho h
  | cons x a ih =>
    rw [Stage.after] at h
    cases x with
    | blank c => exact ih h (by cases s <;> first | exact fun _ => ho rfl | nofun)
    | comment text => exact ih h (by cases s <;> first | exact fun _ => ho rfl | nofun)
    | token t text =>
      rw [List.filterMap_cons_some (rfl : Piece.tok? (.token t text) = some t)]
      cases t with
      | lParen => exact ih h fun _ => rfl
      | rParen => exact ih h (by cases s <;> nofun)
      | _ => exact ih h (by cases s <;> first | exact fun _ => ho rfl | nofun)

/-! The outer lexer at the word LET. -/

theorem readUntil_split {stop : Char → Bool} {cs raw : List Char} {p : Pos} {cur : Cursor}
    (h : readUntil stop cs p = (raw, cur)) :
    cs = raw ++ cur.rest ∧ cur.rest.head?.all stop = true := by
  induction cs generalizing p raw cur with
  | nil =>
    cases h
    exact ⟨rfl, rfl⟩
  | cons c cs ih =>
    rw [readUntil] at h
    split at h
    · rename_i hStop
      cases h
      exact ⟨rfl, hStop⟩
    · cases h
      obtain ⟨hSplit, hRest⟩ := ih rfl
      exact ⟨congrArg (c :: ·) hSplit, hRest⟩

section Let
variable {src raw : List Char} {p : Pos} {cur : Cursor}
  (hRead : readUntil isBlank src p = (raw, cur)) (hLet : lower (String.ofList raw) = "let")
include hLet

theorem let_head : ∃ c cs, raw = c :: cs ∧ (c = 'l' ∨ c = 'L') := by
  have hMap : raw.map Char.toLower = ['l', 'e', 't'] := by
    have hList := congrArg String.toList hLet
    rwa [lower, String.toList_ofList, String.toList_ofList] at hList
  obtain ⟨c, cs, rfl, hc, -⟩ := List.map_eq_cons_iff.mp hMap
  refine ⟨c, cs, rfl, ?_⟩
  by_cases hUpper : c.val ≥ 'A'.val ∧ c.val ≤ 'Z'.val
  · have hVal : c.toLower.val = c.val + ('a'.val - 'A'.val) := by
      unfold Char.toLower
      rw [dif_pos hUpper]
    have hShift : 'a'.val - 'A'.val = 32 := rfl
    have hl : (108 : UInt32) = c.val + 32 := by
      rw [← hShift, ← hVal, hc]
      rfl
    refine .inr (Char.ext ?_)
    show c.val = 76
    grind
  · rw [toLower_of_not_upper hUpper] at hc
    exact .inl hc

theorem let_solid : ∀ d ∈ raw, Solid d := by
  intro d hd
  have hLetter := letters_of_lower (List.all_eq_true.mp (by decide)) hLet d hd
  exact identChar_solid (by simp [identChar, identStart, hLetter])

/-- The scan of a block may as well begin at the word LET. -/
theorem scan_let {cs : List Char} (hBlank : cs.head?.all isBlank = true) :
    findLetEnd .blank (raw ++ cs) = before raw (findLetEnd .blank cs) := by
  have hSolid := let_solid hLet
  have hEnd : isEndWord raw = false := by
    rw [isEndWord, hLet]
    decide
  obtain ⟨c, v, rfl, hc⟩ := let_head hLet
  have hFirst := hSolid c List.mem_cons_self
  have hOpen : c ≠ '(' := by rcases hc with rfl | rfl <;> decide
  rw [List.cons_append, scan_blank_char hFirst.1 hFirst.2.1 (fun h => hFirst.2.2 h.1) fun h => hOpen h.1,
    scan_word_text fun d hd => hSolid d (List.mem_cons_of_mem _ hd), ← before_cons]
  refine congrArg (before (c :: v)) ?_
  show findLetEnd (.word (c :: v)) cs = _
  cases cs with
  | nil =>
    simp only [findLetEnd, hEnd]
    rfl
  | cons b cs =>
    have hb : isLetBlank b = true := by
      rcases isBlank_cases hBlank with rfl | rfl | rfl | rfl <;> rfl
    rw [scan_word_blank hb hEnd, scan_blank_blank hb]

include hRead

theorem nextToken_let : nextToken src p = letToken raw p cur := by
  obtain ⟨hSplit, -⟩ := readUntil_split hRead
  have hWord : wordToken src p = letToken raw p cur := by
    unfold wordToken
    rw [hRead]
    exact if_pos hLet
  rw [← hWord]
  obtain ⟨c, v, rfl, hc⟩ := let_head hLet
  rw [hSplit, List.cons_append]
  apply nextToken_solid
  · rintro ⟨rfl, -⟩
    rcases hc with hc | hc <;> cases hc
  · rintro ⟨rfl, -⟩
    rcases hc with hc | hc <;> cases hc
  · refine charLiteral_head ?_ _ _
    rcases hc with rfl | rfl <;> decide
  · refine startsString_head ?_ _
    rcases hc with rfl | rfl <;> decide

end Let

/-- On a text that begins with LET, with the comments of the LET lexer out of the scan's way: a captured
block that the LET lexer reads through ends with the one END that stands alone, and a form whose END
begins a word, with a blank or nothing behind it, is captured as it is. -/
theorem let_block_ends {number : FloatLit → String} {src raw : List Char} {p : Pos} {cur : Cursor}
    (hRead : readUntil isBlank src p = (raw, cur)) (hLet : lower (String.ofList raw) = "let") :
    (∀ text span cur' end_, nextToken src p = .ok (some (⟨.code (.letBlock text), span⟩, cur')) →
      (tokens ⟨text.toList, 0⟩).stop = .ok end_ → clear .start (layout text.toList).1 = true →
      ∃ a w, StandsAlone .start (layout text.toList).1 a w [] ∧
        (tokens ⟨text.toList, 0⟩).toks.map Prod.fst = a.filterMap Piece.tok? ++ [.endKw] ∧
        ∀ a' w' b', StandsAlone .start (layout text.toList).1 a' w' b' → b' = []) ∧
    ∀ text behind form a w, src = text ++ behind → behind.head?.all isLetBlank = true →
      parse number (String.ofList text) = .ok form → (layout text).1 = a ++ [.token .endKw w] →
      clear .start (layout text).1 = true → Stage.after .start a [.token .endKw w] ≠ .word →
      ∃ span cur', cur'.rest = behind ∧
        nextToken src p = .ok (some (⟨.code (.letBlock (String.ofList text)), span⟩, cur')) := by
  obtain ⟨hSplit, hBlank⟩ := readUntil_split hRead
  have hHead : ∀ b r, cur.rest = b ++ r → b.head?.all isBlank = true := by
    intro b r hEq
    rw [hEq] at hBlank
    cases b with
    | nil => rfl
    | cons c b => exact hBlank
  rw [nextToken_let hRead hLet]
  constructor
  · intro text span cur' end_ hToken hStop hClear
    unfold letToken at hToken
    split at hToken
    · cases hToken
    · rename_i body rest hFound
      cases hToken
      rw [String.toList_ofList] at hStop hClear ⊢
      have hLaid := layout_laid ((tokens_layout _ _).2.mp ⟨end_, hStop⟩)
      have hText := findLetEnd_text hFound
      have hScan : findLetEnd .blank (raw ++ body) = some (raw ++ body, []) := by
        rw [scan_let hLet (hHead _ _ hText)]
        exact before_eq_some.mpr ⟨body, rfl, (scan_cut (findLetEnd_stop hFound)).mp (hText ▸ hFound)⟩
      rw [scan_laid hLaid .start hClear] at hScan
      obtain ⟨r, hUntil, hTexts⟩ := Option.map_eq_some_iff.mp hScan
      obtain ⟨a, w, hFront, hStands, hFirst⟩ := untilEnd_spec hUntil
      have hNone : r.2 = [] := by
        cases hBehind : r.2 with
        | nil => rfl
        | cons x b =>
          have hEmpty : textOf r.2 = [] := congrArg Prod.snd hTexts
          rw [hBehind, textOf_cons] at hEmpty
          refine absurd (List.append_eq_nil_iff.mp hEmpty).1 (hLaid.piece_ne_nil x ?_)
          rw [hStands.split, hBehind]
          exact List.mem_append_right _ (List.mem_cons_of_mem _ List.mem_cons_self)
      rw [hNone] at hStands hFirst
      refine ⟨a, w, hStands, ?_, fun a' w' b' h => List.length_eq_zero_iff.mp (Nat.le_zero.mp (hFirst a' w' b' h))⟩
      rw [(tokens_layout _ _).1, hStands.split, List.filterMap_append]
      rfl
  · intro text behind form a w hSrc hBehind hParse hPieces hClear hStage
    obtain ⟨us, end_, hToks, hStop, hForm⟩ := parse_form hParse
    rw [String.toList_ofList] at hToks hStop
    have hClosed := hForm.closed
    have hLaid := layout_laid ((tokens_layout _ _).2.mp ⟨end_, hStop⟩)
    have hUs : a.filterMap Piece.tok? = us := by
      rw [(tokens_layout _ _).1, hPieces, List.filterMap_append] at hToks
      exact List.append_cancel_right hToks
    have hStart : Stage.after .start a [.token .endKw w] = .start := by
      cases hAfter : Stage.after .start a [.token .endKw w] with
      | start => rfl
      | word => exact absurd hAfter hStage
      | paren =>
        have hOpen := after_paren (o := false) hAfter nofun
        rw [hUs, hClosed.paren] at hOpen
        cases hOpen
    have hUntil : untilEnd .start (layout text).1 = some ((layout text).1, []) := by
      rw [hPieces, untilEnd_append (hUs ▸ hClosed.noEnd), hStart]
      rfl
    have hScan := scan_laid hLaid .start hClear
    rw [hUntil, Option.map_some, texts, hLaid.text] at hScan
    obtain ⟨body, rfl, hRest⟩ : ∃ body, text = raw ++ body ∧ cur.rest = body ++ behind := by
      rcases List.append_eq_append_iff.mp (hSrc.symm.trans hSplit) with
        ⟨cs, hRaw, rfl⟩ | ⟨body, hText, hRest⟩
      · cases cs with
        | nil => exact ⟨[], by rw [hRaw, List.append_nil, List.append_nil], rfl⟩
        | cons c cs =>
          have hSolid := let_solid hLet c (hRaw ▸ List.mem_append_right _ List.mem_cons_self)
          have hFirst := hSolid.1
          rw [show isLetBlank c = true from hBehind] at hFirst
          cases hFirst
      · exact ⟨body, hText, hRest⟩
    rw [scan_let hLet (hHead _ _ hRest)] at hScan
    obtain ⟨body', hBody, hFound⟩ := before_eq_some.mp hScan
    obtain rfl := List.append_cancel_left hBody
    have hBlock := (scan_cut hBehind).mpr hFound
    unfold letToken
    rw [hRest, hBlock]
    exact ⟨_, _, rfl, rfl⟩

/-- The text of a number, where the errors are of no interest. -/
def rawText (n : FloatLit) : String := n.raw

/-- A comment between parentheses and a comment glued to a word. -/
def commentedLet : List Char := "LET ( a \\ end\n ) -> ( c ) = a\\ glued\n END".toList

theorem let_block_ends_commented :
    ∃ span cur', cur'.rest = " END".toList ∧
      nextToken (commentedLet ++ " END".toList) ⟨1, 1, 0⟩ =
        .ok (some (⟨.code (.letBlock (String.ofList commentedLet)), span⟩, cur')) ∧
      ∃ a w, StandsAlone .start (layout commentedLet).1 a w [] := by
  have hEnds := @let_block_ends rawText (commentedLet ++ " END".toList) _ ⟨1, 1, 0⟩ _ rfl
    (by decide +kernel)
  have hClear : clear .start (layout commentedLet).1 = true := by decide +kernel
  have hParse : (parse rawText (String.ofList commentedLet)).toOption.isSome = true := by
    decide +kernel
  obtain ⟨form, hForm⟩ := Option.isSome_iff_exists.mp hParse
  have hPieces : (layout commentedLet).1 =
      (layout commentedLet).1.dropLast ++ [.token .endKw "END".toList] := by decide +kernel
  have hStage : Stage.after .start (layout commentedLet).1.dropLast [.token .endKw "END".toList] ≠ .word := by
    decide +kernel
  obtain ⟨span, cur', hRest, hToken⟩ := hEnds.2 _ _ form _ _ rfl (by decide) (ok_of_toOption hForm)
    hPieces hClear hStage
  obtain ⟨us, end_, -, hStop, -⟩ := parse_form (ok_of_toOption hForm)
  obtain ⟨a, w, hStands, -, -⟩ := hEnds.1 _ _ _ end_ hToken hStop (by rwa [String.toList_ofList])
  rw [String.toList_ofList] at hStands
  exact ⟨span, cur', hRest, hToken, a, w, hStands⟩

def gluedEnd : List Char := "LET ( x ) -> ( y ) = (x)END END".toList

/-- An END glued to a parenthesis is a token of the LET lexer and no end for the outer one. -/
theorem let_block_not_ends : ¬ ∀ (number : FloatLit → String) (src raw : List Char) (p : Pos)
    (cur : Cursor), readUntil isBlank src p = (raw, cur) → lower (String.ofList raw) = "let" →
    (∀ text span cur', nextToken src p = .ok (some (⟨.code (.letBlock text), span⟩, cur')) →
      ∃ ts, (tokens ⟨text.toList, 0⟩).toks.map Prod.fst = ts ++ [.endKw] ∧ .endKw ∉ ts) ∧
    ∀ text behind form, src = text ++ behind → (∀ c ∈ behind.head?, identChar c = false) →
      parse number (String.ofList text) = .ok form →
      (∃ a w, (layout text).1 = a ++ [.token .endKw w]) →
      ∃ span cur', cur'.rest = behind ∧
        nextToken src p = .ok (some (⟨.code (.letBlock (String.ofList text)), span⟩, cur')) := by
  intro hAll
  obtain ⟨hCaptured, -⟩ := hAll rawText gluedEnd "LET".toList ⟨1, 1, 0⟩ _ rfl (by decide +kernel)
  obtain ⟨span, cur', hToken⟩ : ∃ span cur', nextToken gluedEnd ⟨1, 1, 0⟩ =
      .ok (some (⟨.code (.letBlock (String.ofList gluedEnd)), span⟩, cur')) := ⟨_, _, rfl⟩
  obtain ⟨ts, hToks, hOnce⟩ := hCaptured _ _ _ hToken
  have hLast : ((tokens ⟨gluedEnd, 0⟩).toks.map Prod.fst).dropLast.contains .endKw = true := by
    decide +kernel
  rw [String.toList_ofList] at hToks
  rw [hToks, List.dropLast_concat, List.contains_eq_mem, decide_eq_true_eq] at hLast
  exact hOnce hLast

end FactorForth.Correctness.LetForms
