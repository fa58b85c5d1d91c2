import FactorForth.Compiler.LetLang

/-! A text as the LET lexer reads it, with the blanks and comments that it skips. -/

namespace FactorForth.Correctness.LetForms
open FactorForth.Compiler.LetLang
open FactorForth.Compiler (lower toLower_of_not_upper)
open FactorForth.Compiler.Lex (isBlank nextIsBlankOrEof isDigit isLetBlank endsInBlankByte isEndWord)

inductive Piece where
  | blank (c : Char)
  /-- From the backslash through the end of the line. -/
  | comment (text : List Char)
  | token (t : Tok) (text : List Char)
deriving DecidableEq

def Piece.text : Piece → List Char
  | .blank c => [c]
  | .comment text => text
  | .token _ text => text

def Piece.tok? : Piece → Option Tok
  | .token t _ => some t
  | _ => none

def textOf (ps : List Piece) : List Char := ps.flatMap Piece.text

@[simp] theorem textOf_nil : textOf [] = [] := rfl

@[simp] theorem textOf_cons (x : Piece) (ps : List Piece) : textOf (x :: ps) = x.text ++ textOf ps := rfl

def throughLine : List Char → List Char × List Char
  | [] => ([], [])
  | c :: cs => if c = '\n' then ([c], cs) else (c :: (throughLine cs).1, (throughLine cs).2)

theorem throughLine_text (cs : List Char) : (throughLine cs).1 ++ (throughLine cs).2 = cs := by
  induction cs with
  | nil => rfl
  | cons c cs ih =>
    rw [throughLine]
    split
    · rfl
    · exact congrArg (c :: ·) ih

theorem throughLine_length (cs : List Char) : (throughLine cs).2.length ≤ cs.length := by
  have hText := congrArg List.length (throughLine_text cs)
  rw [List.length_append] at hText
  exact hText ▸ Nat.le_add_left _ _

/-- The pieces up to where the lexer fails, and the text from there on. -/
def layout (cs : List Char) : List Piece × List Char :=
  match cs with
  | [] => ([], [])
  | c :: rest =>
    if isBlank c then
      let l := layout rest
      (.blank c :: l.1, l.2)
    else if c = '\\' && nextIsBlankOrEof rest then
      let l := layout (throughLine rest).2
      (.comment (c :: (throughLine rest).1) :: l.1, l.2)
    else
      match _hTok : readTok c rest with
      | .error _ => ([], c :: rest)
      | .ok t =>
        let l := layout ((c :: rest).drop t.2)
        (.token t.1 ((c :: rest).take t.2) :: l.1, l.2)
termination_by cs.length
decreasing_by
  · exact Nat.lt_succ_self _
  · exact Nat.lt_succ_of_le (throughLine_length rest)
  · rw [List.length_drop]
    exact Nat.sub_lt (Nat.succ_pos _) (readTok_pos _hTok)

/-! The texts of the tokens. -/

def signs : List (Tok × List Char) := [
  (.lParen, ['(']), (.rParen, [')']), (.comma, [',']), (.eqEq, ['=', '=']), (.equals, ['=']),
  (.notEq, ['!', '=']), (.lessEq, ['<', '=']), (.less, ['<']), (.greaterEq, ['>', '=']),
  (.greater, ['>']), (.plus, ['+']), (.arrow, ['-', '>']), (.minus, ['-']), (.starStar, ['*', '*']),
  (.star, ['*']), (.slash, ['/']), (.colon, [':']), (.starStar, ['^'])]

def numberChar (c : Char) : Bool :=
  isDigit c || c = '.' || c = 'e' || c = 'E' || c = '+' || c = '-'

/-- A token's text, and what stands behind it. -/
inductive TokenText : Tok → List Char → List Char → Prop where
  | sign {t : Tok} {u cs : List Char} (h : (t, u) ∈ signs) : TokenText t u cs
  | word {c : Char} {u cs : List Char} (hHead : identStart c = true)
      (hBody : ∀ d ∈ u, identChar d = true) (hEnd : ∀ d ∈ cs.head?, identChar d = false) :
      TokenText (wordTok (String.ofList (c :: u))) (c :: u) cs
  | number {n : FactorForth.Compiler.FloatLit} {c : Char} {u cs : List Char}
      (hHead : isDigit c = true ∨ c = '.') (hBody : ∀ d ∈ u, numberChar d = true) :
      TokenText (.num n) (c :: u) cs

theorem symbol_sign {c : Char} {cs : List Char} {t : Tok × Nat} (h : symbol c cs.head? = some t) :
    (t.1, (c :: cs).take t.2) ∈ signs := by
  have hOne : ∀ d : Char, (d :: cs).take 1 = [d] := fun _ => rfl
  have hTwo : ∀ d e : Char, cs.head? = some e → (d :: cs).take 2 = [d, e] := by
    intro d e hHead
    obtain ⟨cs', rfl⟩ := List.head?_eq_some_iff.mp hHead
    rfl
  unfold symbol at h
  split at h
  all_goals cases h
  all_goals first
    | (rw [hOne]; decide)
    | (rw [hTwo _ _ (by assumption)]; decide)

theorem scanNumber_chars (dot mark : Bool) (cs : List Char) :
    scanNumber dot mark cs <+: cs ∧ ∀ d ∈ scanNumber dot mark cs, numberChar d = true := by
  induction cs generalizing dot mark with
  | nil => exact ⟨List.nil_prefix, nofun⟩
  | cons c cs ih =>
    have hStep : ∀ dot mark, numberChar c = true →
        c :: scanNumber dot mark cs <+: c :: cs ∧ ∀ d ∈ c :: scanNumber dot mark cs, numberChar d = true :=
      fun dot mark hc => ⟨(List.prefix_cons_inj c).mpr (ih dot mark).1,
        List.forall_mem_cons.mpr ⟨hc, (ih dot mark).2⟩⟩
    rw [scanNumber]
    split_ifs with hDigit hDot hMark hSign
    · exact hStep _ _ (by simp [numberChar, hDigit])
    · have hc : c = '.' := by simpa using (Bool.and_eq_true_iff.mp hDot).1
      exact hStep _ _ (by simp [numberChar, hc])
    · exact hStep _ _ (by rcases Bool.or_eq_true_iff.mp hMark with h | h <;> simp_all [numberChar])
    · have hc := (Bool.and_eq_true_iff.mp hSign).2
      exact hStep _ _ (by rcases Bool.or_eq_true_iff.mp hc with h | h <;> simp_all [numberChar])
    · exact ⟨List.nil_prefix, nofun⟩

theorem readTok_text {c : Char} {cs : List Char} {t : Tok × Nat} (h : readTok c cs = .ok t) :
    TokenText t.1 ((c :: cs).take t.2) ((c :: cs).drop t.2) := by
  have hSplit : ∀ u v : List Char, u ++ v = cs →
      (c :: cs).take (c :: u).length = c :: u ∧ (c :: cs).drop (c :: u).length = v := by
    rintro u v rfl
    exact ⟨by simp, by simp⟩
  unfold readTok at h
  split at h
  · rename_i hSymbol
    obtain rfl := Except.ok.inj h
    exact .sign (symbol_sign hSymbol)
  · split_ifs at h with _ hIdent hNumber
    · obtain rfl := Except.ok.inj h
      obtain ⟨hTake, hDrop⟩ := hSplit _ _ List.takeWhile_append_dropWhile
      dsimp only
      rw [hTake, hDrop]
      refine .word hIdent (List.all_eq_true.mp List.all_takeWhile) fun d hd => ?_
      have hHead := List.head?_dropWhile_not identChar cs
      rw [Option.mem_def.mp hd] at hHead
      exact hHead
    · dsimp only at h
      split_ifs at h
      obtain rfl := Except.ok.inj h
      obtain ⟨⟨v, hv⟩, hChars⟩ := scanNumber_chars (c = '.') false cs
      obtain ⟨hTake, hDrop⟩ := hSplit _ _ hv
      dsimp only
      rw [hTake, hDrop]
      exact .number (by simpa using hNumber) hChars

/-! What the scans look at in a token. -/

theorem identChar_bounds {c : Char} (h : identChar c = true) :
    48 ≤ c.toNat ∧ c.toNat ≤ 122 ∧ c.toNat ≠ 92 := by
  simp only [identChar, identStart, isLetter, isDigit, Bool.or_eq_true, Bool.and_eq_true,
    decide_eq_true_eq, Char.le_def, UInt32.le_iff_toNat_le] at h
  rcases h with ((⟨hLo, hHi⟩ | ⟨hLo, hHi⟩) | rfl) | ⟨hLo, hHi⟩
  · exact ⟨Nat.le_trans (by decide) hLo, hHi, Nat.ne_of_gt (Nat.lt_of_lt_of_le (by decide) hLo)⟩
  · exact ⟨Nat.le_trans (by decide) hLo, Nat.le_trans hHi (by decide),
      Nat.ne_of_lt (Nat.lt_of_le_of_lt hHi (by decide))⟩
  · decide
  · exact ⟨hLo, Nat.le_trans hHi (by decide), Nat.ne_of_lt (Nat.lt_of_le_of_lt hHi (by decide))⟩

/-- A character that no scan takes for white space or for the start of a line comment. -/
def Solid (c : Char) : Prop := isLetBlank c = false ∧ endsInBlankByte c = false ∧ c ≠ '\\'

instance (c : Char) : Decidable (Solid c) := by unfold Solid; infer_instance

theorem solid_of_bounds {c : Char} (hLo : 33 ≤ c.toNat) (hHi : c.toNat ≤ 126) (hNe : c.toNat ≠ 92) :
    Solid c := by
  refine ⟨?_, ?_, fun hEq => hNe (hEq ▸ rfl)⟩
  · have hSpace : c ≠ ' ' := by
      rintro rfl
      exact absurd hLo (by decide)
    simp only [isLetBlank, hSpace, decide_false, Bool.false_or, Bool.and_eq_false_iff,
      decide_eq_false_iff_not]
    exact .inr fun h => absurd (Nat.le_trans hLo h) (by decide)
  · simp only [endsInBlankByte, Bool.and_eq_false_iff, decide_eq_false_iff_not]
    exact .inl fun h => absurd (Nat.le_trans h hHi) (by decide)

theorem numberChar_cases {c : Char} (h : numberChar c = true) :
    identChar c = true ∨ c = '.' ∨ c = '+' ∨ c = '-' := by
  simp only [numberChar, Bool.or_eq_true, decide_eq_true_eq] at h
  rcases h with ((((h | h) | rfl) | rfl) | h) | h
  · exact .inl (Bool.or_eq_true_iff.mpr (.inr h))
  · exact .inr (.inl h)
  · exact .inl (by decide)
  · exact .inl (by decide)
  · exact .inr (.inr (.inl h))
  · exact .inr (.inr (.inr h))

theorem isEndWord_iff {u : List Char} : isEndWord u = true ↔ lower (String.ofList u) = "end" := by
  rw [isEndWord, beq_iff_eq]

theorem isLetter_of_toLower {c : Char} (h : isLetter c.toLower = true) : isLetter c = true := by
  by_cases hc : c.val ≥ 'A'.val ∧ c.val ≤ 'Z'.val
  · simp only [isLetter, Bool.or_eq_true, Bool.and_eq_true, decide_eq_true_eq]
    exact .inr hc
  · rwa [toLower_of_not_upper hc] at h

theorem letters_of_lower {u : List Char} {w : String} (hw : ∀ c ∈ w.toList, isLetter c = true)
    (h : lower (String.ofList u) = w) : ∀ c ∈ u, isLetter c = true := by
  intro c hc
  have hMap : u.map Char.toLower = w.toList := by
    have hList := congrArg String.toList h
    rwa [lower, String.toList_ofList, String.toList_ofList] at hList
  exact isLetter_of_toLower (hw _ (hMap ▸ List.mem_map_of_mem hc))

/-- The word END has letters only. -/
theorem isEndWord_letters {u : List Char} (h : isEndWord u = true) : ∀ c ∈ u, isLetter c = true :=
  letters_of_lower (List.all_eq_true.mp (by decide)) (isEndWord_iff.mp h)

theorem wordTok_end (word : String) : wordTok word = .endKw ↔ lower word = "end" := by
  unfold wordTok
  split_ifs with hLet hEnd
  · rw [hLet]
    decide
  · exact iff_of_true rfl hEnd
  · exact iff_of_false nofun hEnd
  · exact iff_of_false nofun hEnd
  · exact iff_of_false nofun hEnd

theorem wordTok_ne (word : String) : wordTok word ≠ .lParen ∧ wordTok word ≠ .rParen := by
  unfold wordTok
  split_ifs <;> exact ⟨nofun, nofun⟩

theorem isLetter_numberHead {c : Char} (h : isDigit c = true ∨ c = '.') : isLetter c = false := by
  rcases h with h | rfl
  · simp only [isDigit, Bool.and_eq_true, decide_eq_true_eq, Char.le_def, UInt32.le_iff_toNat_le] at h
    simp only [isLetter, Bool.or_eq_false_iff, Bool.and_eq_false_iff, decide_eq_false_iff_not,
      Char.le_def, UInt32.le_iff_toNat_le]
    exact ⟨.inl fun hLetter => absurd (Nat.le_trans hLetter h.2) (by decide),
      .inl fun hLetter => absurd (Nat.le_trans hLetter h.2) (by decide)⟩
  · decide

theorem identChar_solid {c : Char} (h : identChar c = true) : Solid c :=
  have hBounds := identChar_bounds h
  solid_of_bounds (Nat.le_trans (by decide) hBounds.1) (Nat.le_trans hBounds.2.1 (by decide))
    hBounds.2.2

namespace TokenText
variable {t : Tok} {u cs : List Char}

theorem solid (h : TokenText t u cs) : ∀ d ∈ u, Solid d := by
  have hNumber : ∀ d, numberChar d = true → Solid d := by
    intro d hd
    rcases numberChar_cases hd with hd | rfl | rfl | rfl
    · exact identChar_solid hd
    all_goals decide
  have hSigns : ∀ p ∈ signs, ∀ d ∈ p.2, Solid d := by
    intro p hp d hd
    have hAll : (signs.all fun p => p.2.all fun d => decide (Solid d)) = true := by decide
    exact of_decide_eq_true (List.all_eq_true.mp (List.all_eq_true.mp hAll p hp) d hd)
  cases h with
  | sign h => exact hSigns _ h
  | word hHead hBody hEnd =>
    refine List.forall_mem_cons.mpr ⟨identChar_solid ?_, fun d hd => identChar_solid (hBody d hd)⟩
    rw [identChar, hHead, Bool.true_or]
  | number hHead hBody =>
    refine List.forall_mem_cons.mpr ⟨hNumber _ ?_, fun d hd => hNumber d (hBody d hd)⟩
    rcases hHead with hHead | rfl
    · simp [numberChar, hHead]
    · decide

theorem ne_nil (h : TokenText t u cs) : u ≠ [] := by
  have hSigns : ∀ p ∈ signs, p.2 ≠ [] := by decide
  cases h with
  | sign h => exact hSigns _ h
  | word => exact List.cons_ne_nil _ _
  | number => exact List.cons_ne_nil _ _

/-- Only the parentheses have a parenthesis in their text. -/
theorem parens (h : TokenText t u cs) :
    (t = .lParen ↔ '(' ∈ u) ∧ (t = .rParen ↔ ')' ∈ u) ∧ (t = .lParen → u = ['(']) ∧
      (t = .rParen → u = [')']) := by
  have hSigns : ∀ p ∈ signs, (p.1 = .lParen ↔ '(' ∈ p.2) ∧ (p.1 = .rParen ↔ ')' ∈ p.2) ∧
      (p.1 = .lParen → p.2 = ['(']) ∧ (p.1 = .rParen → p.2 = [')']) := by decide
  have hNone : ∀ c : Char, ∀ u : List Char, (c = '(' ∨ c = ')') →
      (∀ d ∈ u, identChar d = true ∨ numberChar d = true) → c ∉ u := by
    rintro c u (rfl | rfl) hBody hMem
    all_goals exact absurd (hBody _ hMem) (by decide)
  cases h with
  | sign h => exact hSigns _ h
  | @word c u _ hHead hBody hEnd =>
    obtain ⟨hOpen, hClose⟩ := wordTok_ne (String.ofList (c :: u))
    have hChars : ∀ d ∈ c :: u, identChar d = true ∨ numberChar d = true := by
      refine List.forall_mem_cons.mpr ⟨.inl ?_, fun d hd => .inl (hBody d hd)⟩
      rw [identChar, hHead, Bool.true_or]
    exact ⟨iff_of_false hOpen (hNone _ _ (.inl rfl) hChars),
      iff_of_false hClose (hNone _ _ (.inr rfl) hChars), fun h => absurd h hOpen,
      fun h => absurd h hClose⟩
  | @number n c u _ hHead hBody =>
    have hChars : ∀ d ∈ c :: u, identChar d = true ∨ numberChar d = true := by
      refine List.forall_mem_cons.mpr ⟨.inr ?_, fun d hd => .inr (hBody d hd)⟩
      rcases hHead with hHead | rfl
      · simp [numberChar, hHead]
      · decide
    exact ⟨iff_of_false nofun (hNone _ _ (.inl rfl) hChars),
      iff_of_false nofun (hNone _ _ (.inr rfl) hChars), nofun, nofun⟩

/-- A token of letters only ends where no letter follows. -/
theorem fence (h : TokenText t u cs) :
    (∃ d ∈ u, isLetter d = false) ∨ ∀ d ∈ cs.head?, identChar d = false := by
  have hSigns : ∀ p ∈ signs, ∃ d ∈ p.2, isLetter d = false := by
    intro p hp
    have hAll : (signs.all fun p => p.2.any fun d => !isLetter d) = true := by decide
    obtain ⟨d, hd, hLetter⟩ := List.any_eq_true.mp (List.all_eq_true.mp hAll p hp)
    exact ⟨d, hd, Bool.not_eq_true' .. ▸ hLetter⟩
  cases h with
  | sign h => exact .inl (hSigns _ h)
  | word hHead hBody hEnd => exact .inr hEnd
  | @number n c u _ hHead hBody =>
    exact .inl ⟨c, List.mem_cons_self, isLetter_numberHead hHead⟩

theorem end_iff (h : TokenText t u cs) : t = .endKw ↔ isEndWord u = true := by
  have hSigns : ∀ p ∈ signs, p.1 ≠ .endKw ∧ isEndWord p.2 = false := by decide
  cases h with
  | sign h => exact iff_of_false (hSigns _ h).1 (Bool.eq_false_iff.mp (hSigns _ h).2)
  | word hHead hBody hEnd => rw [isEndWord_iff, wordTok_end]
  | @number n c u cs hHead hBody =>
    refine iff_of_false nofun fun hEnd => ?_
    have hLetter := isEndWord_letters hEnd c List.mem_cons_self
    rw [isLetter_numberHead hHead] at hLetter
    cases hLetter

end TokenText

/-! The tokens of a layout are those that the lexer reads. -/

theorem tokens_congr {l l' : Lexer} (h : nextTok l = nextTok l') : tokens l = tokens l' := by
  rw [tokens.eq_def, tokens.eq_def l', h]

theorem skipWs_line (cs : List Char) (pos : Nat) :
    ∃ pos', skipWs true cs pos = skipWs false (throughLine cs).2 pos' := by
  induction cs generalizing pos with
  | nil => exact ⟨pos, rfl⟩
  | cons c cs ih =>
    rw [throughLine, skipWs]
    by_cases hEnd : c = '\n'
    · rw [if_pos hEnd, hEnd]
      exact ⟨_, rfl⟩
    · rw [if_neg hEnd, bne_iff_ne.mpr hEnd]
      exact ih _

theorem nextTok_blank {c : Char} (h : isBlank c = true) (cs : List Char) (pos : Nat) :
    nextTok ⟨c :: cs, pos⟩ = nextTok ⟨cs, pos + c.utf8Size⟩ := by
  unfold nextTok
  rw [skipWs, if_pos h]

theorem nextTok_comment {c : Char} {cs : List Char} (hBlank : ¬ isBlank c = true)
    (h : (c = '\\' && nextIsBlankOrEof cs) = true) (pos : Nat) :
    ∃ pos', nextTok ⟨c :: cs, pos⟩ = nextTok ⟨(throughLine cs).2, pos'⟩ := by
  obtain ⟨pos', hLine⟩ := skipWs_line cs (pos + c.utf8Size)
  refine ⟨pos', ?_⟩
  unfold nextTok
  rw [skipWs, if_neg hBlank, if_pos h, hLine]

theorem skipWs_token {c : Char} {cs : List Char} (hBlank : ¬ isBlank c = true)
    (h : ¬ (c = '\\' && nextIsBlankOrEof cs) = true) (pos : Nat) :
    skipWs false (c :: cs) pos = ⟨c :: cs, pos⟩ := by
  rw [skipWs, if_neg hBlank, if_neg h]

theorem readTok_eof {c : Char} {cs : List Char} {t : Tok × Nat} (h : readTok c cs = .ok t) :
    t.1 ≠ .eof := by
  have hSigns : ∀ p ∈ signs, p.1 ≠ .eof := by decide
  have hWord : ∀ word, wordTok word ≠ .eof := by
    intro word
    unfold wordTok
    split_ifs <;> nofun
  generalize hText : (c :: cs).take t.2 = u
  have hToken := readTok_text h
  rw [hText] at hToken
  intro hEof
  rw [hEof] at hToken
  generalize hTok : Tok.eof = t' at hToken
  cases hToken with
  | sign hSign => exact hSigns _ hSign hTok.symm
  | word => exact hWord _ hTok.symm
  | number => cases hTok

theorem tokens_layout (cs : List Char) (pos : Nat) :
    (tokens ⟨cs, pos⟩).toks.map Prod.fst = (layout cs).1.filterMap Piece.tok? ∧
      ((∃ end_, (tokens ⟨cs, pos⟩).stop = .ok end_) ↔ (layout cs).2 = []) := by
  fun_induction layout cs generalizing pos with
  | case1 =>
    rw [tokens.eq_def]
    exact ⟨rfl, iff_of_true ⟨pos, rfl⟩ rfl⟩
  | case2 c rest hBlank l ih =>
    rw [tokens_congr (nextTok_blank hBlank rest pos)]
    exact ih _
  | case3 c rest hBlank hComment l ih =>
    obtain ⟨pos', hNext⟩ := nextTok_comment hBlank hComment pos
    rw [tokens_congr hNext]
    exact ih _
  | case4 c rest hBlank hComment message hTok =>
    have hNext : nextTok ⟨c :: rest, pos⟩ = .error ⟨message, pos⟩ := by
      unfold nextTok
      rw [skipWs_token hBlank hComment]
      dsimp only
      rw [hTok]
    rw [tokens.eq_def, hNext]
    exact ⟨rfl, iff_of_false nofun nofun⟩
  | case5 c rest hBlank hComment t hTok l ih =>
    have hNext : nextTok ⟨c :: rest, pos⟩ = .ok ((t.1, pos), ⟨(c :: rest).drop t.2, pos + t.2⟩) := by
      unfold nextTok
      rw [skipWs_token hBlank hComment]
      dsimp only
      rw [hTok]
    rw [tokens.eq_def, hNext]
    dsimp only
    rw [dif_neg (readTok_eof hTok)]
    exact ⟨congrArg (t.1 :: ·) (ih _).1, (ih _).2⟩

/-- A text that the lexer reads to its end. -/
inductive Laid : List Piece → List Char → Prop where
  | nil : Laid [] []
  | blank {c : Char} {ps : List Piece} {cs : List Char} (h : isBlank c = true) (hRest : Laid ps cs) :
      Laid (.blank c :: ps) (c :: cs)
  | comment {ps : List Piece} {cs : List Char} (h : nextIsBlankOrEof cs = true)
      (hRest : Laid ps (throughLine cs).2) : Laid (.comment ('\\' :: (throughLine cs).1) :: ps) ('\\' :: cs)
  | token {t : Tok} {u cs : List Char} {ps : List Piece} (h : TokenText t u cs) (hRest : Laid ps cs) :
      Laid (.token t u :: ps) (u ++ cs)

theorem layout_laid {cs : List Char} (h : (layout cs).2 = []) : Laid (layout cs).1 cs := by
  fun_induction layout cs with
  | case1 => exact .nil
  | case2 c rest hBlank l ih => exact .blank hBlank (ih h)
  | case3 c rest hBlank hComment l ih =>
    obtain ⟨hSlash, hNext⟩ := Bool.and_eq_true_iff.mp hComment
    obtain rfl := of_decide_eq_true hSlash
    exact .comment hNext (ih h)
  | case4 => cases h
  | case5 c rest hBlank hComment t hTok l ih =>
    have hLaid := Laid.token (readTok_text hTok) (ih h)
    rwa [List.take_append_drop] at hLaid

theorem Laid.text {ps : List Piece} {cs : List Char} (h : Laid ps cs) : textOf ps = cs := by
  induction h with
  | nil => rfl
  | blank h hRest ih => exact congrArg (_ :: ·) ih
  | comment h hRest ih =>
    rw [textOf_cons, ih]
    exact congrArg ('\\' :: ·) (throughLine_text _)
  | token h hRest ih => exact congrArg (_ ++ ·) ih

theorem Laid.piece_ne_nil {ps : List Piece} {cs : List Char} (h : Laid ps cs) :
    ∀ x ∈ ps, x.text ≠ [] := by
  induction h with
  | nil => exact nofun
  | blank h hRest ih => exact List.forall_mem_cons.mpr ⟨List.cons_ne_nil _ _, ih⟩
  | comment h hRest ih => exact List.forall_mem_cons.mpr ⟨List.cons_ne_nil _ _, ih⟩
  | token h hRest ih => exact List.forall_mem_cons.mpr ⟨h.ne_nil, ih⟩

theorem Laid.eq_nil {ps : List Piece} (h : Laid ps []) : ps = [] := by
  generalize hText : ([] : List Char) = cs at h
  cases h with
  | nil => rfl
  | blank => cases hText
  | comment => cases hText
  | token h hRest => exact absurd (List.append_eq_nil_iff.mp hText.symm).1 h.ne_nil

end FactorForth.Correctness.LetForms
