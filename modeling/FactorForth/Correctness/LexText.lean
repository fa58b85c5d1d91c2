import FactorForth.Compiler.IntegerText

/-! The tokeniser reads back what is printed: every token of a printed list, at the place where its
text stands. -/

namespace FactorForth.Correctness
open FactorForth.Compiler FactorForth.Compiler.Lex

def advance (p : Pos) (cs : List Char) : Pos := cs.foldl step p

@[simp] theorem advance_nil (p : Pos) : advance p [] = p := rfl

@[simp] theorem advance_cons (p : Pos) (c : Char) (cs : List Char) :
    advance p (c :: cs) = advance (step p c) cs := rfl

theorem advance_append (p : Pos) (cs cs' : List Char) :
    advance p (cs ++ cs') = advance (advance p cs) cs' := List.foldl_append

def Blank (cs : List Char) : Prop := ∀ c ∈ cs, isBlank c = true

instance (cs : List Char) : Decidable (Blank cs) :=
  decidable_of_iff (cs.all isBlank = true) List.all_eq_true

/-- Where a token ends: at a blank or at the end of the text. -/
def AtBreak (cs : List Char) : Prop := nextIsBlankOrEof cs = true

/-! The scanning loops over a text that they take whole. -/

theorem skipWs_blank {gap : List Char} (h : Blank gap) (cs : List Char) (p : Pos) :
    skipWs (gap ++ cs) p = skipWs cs (advance p gap) := by
  induction gap generalizing p with
  | nil => rfl
  | cons c gap ih =>
    rw [List.cons_append, skipWs, if_pos (h c List.mem_cons_self)]
    exact ih (fun d hd => h d (List.mem_cons_of_mem _ hd)) _

theorem readUntil_text {stop : Char → Bool} {text : List Char} (h : ∀ c ∈ text, stop c = false)
    {rest : List Char} (hRest : ∀ c ∈ rest.head?, stop c = true) (p : Pos) :
    readUntil stop (text ++ rest) p = (text, ⟨rest, advance p text⟩) := by
  induction text generalizing p with
  | nil =>
    cases rest with
    | nil => rfl
    | cons c rest =>
      have hStop : stop c = true := hRest c rfl
      rw [List.nil_append, readUntil, if_pos hStop]
      rfl
  | cons c text ih =>
    have hGo : stop c = false := h c List.mem_cons_self
    rw [List.cons_append, readUntil, hGo, if_neg Bool.false_ne_true,
      ih fun d hd => h d (List.mem_cons_of_mem _ hd)]
    rfl

/-! Tokens as text. -/

def stringOpener : StringKind → List Char
  | .dotQuote => ['.', '"']
  | .sQuote => ['S', '"']
  | .cQuote => ['C', '"']
  | .sDollarQuote => ['S', '$', '"']

/-- How a token is written. -/
def kindText : Kind → List Char
  | .code (.word s) => s.toList
  | .code (.int _ _ raw) => raw.toList
  | .code (.float _ raw) => raw.toList
  | .code (.str value kind) => stringOpener kind ++ ' ' :: value.toList ++ ['"']
  | .code (.letBlock text) => text.toList
  | .blockComment text => '(' :: ' ' :: text.toList ++ [')']
  | .lineComment text => '\\' :: ' ' :: text.toList ++ ['\n']

def startsString : List Char → Bool
  | '.' :: '"' :: _ => true
  | 'S' :: '"' :: _ => true
  | 's' :: '"' :: _ => true
  | 'C' :: '"' :: _ => true
  | 'c' :: '"' :: _ => true
  | 'S' :: '$' :: '"' :: _ => true
  | 's' :: '$' :: '"' :: _ => true
  | _ => false

/-- A word that is not numeric and starts no comment, no string and no character literal. -/
structure PlainWord (w : List Char) : Prop where
  nonempty : w ≠ []
  solid : ∀ c ∈ w, isBlank c = false
  notNumeric : ¬ IsNumeric w
  notComment : w ≠ ['\\'] ∧ w ≠ ['(']
  notString : startsString w = false
  notChar : charLiteral w Pos.start = none

/-- A quoted character with its code. -/
def IsCharText (value : Int) (raw : List Char) : Prop :=
  (∃ c : Char, c.toNat < 128 ∧ value = c.toNat ∧ raw = ['\'', c, '\'']) ∨
    ∃ esc code, decodeCharEscape esc = some code ∧ value = code ∧ raw = ['\'', '\\', esc, '\'']

/-- The tokens that have a text of their own. -/
def Printable : Kind → Prop
  | .code (.word s) => PlainWord s.toList
  | .code (.int value base raw) =>
    (∃ n : IntegerText, raw.toList = n.text ∧ value = n.value ∧ base = n.base) ∨
      (base = .decimal ∧ IsCharText value raw.toList)
  | .code (.float _ _) => False
  | .code (.str value _) => '"' ∉ value.toList
  | .code (.letBlock _) => False
  | .blockComment text => ')' ∉ text.toList
  | .lineComment text => '\n' ∉ text.toList

/-- A token and the blanks behind it. -/
structure Printed where
  kind : Kind
  gap : List Char

def printedText (items : List Printed) : List Char :=
  items.flatMap fun item => kindText item.kind ++ item.gap

/-- The tokens of a printed list with the spans of their texts. -/
def printedTokens (p : Pos) : List Printed → List Token
  | [] => []
  | item :: items =>
    ⟨item.kind, ⟨p, advance p (kindText item.kind)⟩⟩ ::
      printedTokens (advance p (kindText item.kind ++ item.gap)) items

/-- At least one blank between any two tokens. -/
def Spaced : List Printed → Prop
  | [] => True
  | [item] => Blank item.gap
  | item :: next :: items => item.gap ≠ [] ∧ Blank item.gap ∧ Spaced (next :: items)

instance decidableSpaced : (items : List Printed) → Decidable (Spaced items)
  | [] => .isTrue trivial
  | [item] => inferInstanceAs (Decidable (Blank item.gap))
  | item :: next :: items =>
    have := decidableSpaced (next :: items)
    inferInstanceAs (Decidable (item.gap ≠ [] ∧ Blank item.gap ∧ Spaced (next :: items)))

/-- The word LET opens a block, and the line end takes the returns in front of it. -/
def SelfContained : Kind → Prop
  | .code (.word s) => lower s ≠ "let"
  | .lineComment text => text.toList.getLast? ≠ some '\r'
  | _ => True

instance : (k : Kind) → Decidable (SelfContained k)
  | .code (.word s) => inferInstanceAs (Decidable (lower s ≠ "let"))
  | .code (.int _ _ _) => .isTrue trivial
  | .code (.float _ _) => .isTrue trivial
  | .code (.str _ _) => .isTrue trivial
  | .code (.letBlock _) => .isTrue trivial
  | .lineComment text => inferInstanceAs (Decidable (text.toList.getLast? ≠ some '\r'))
  | .blockComment _ => .isTrue trivial

/-- A tick, one blank and a quote would read as the blank between quotes. -/
def TicksApart : List Printed → Prop
  | [] => True
  | [_] => True
  | item :: next :: items =>
    (item.kind = .code (.word "'") → item.gap.length = 1 →
      (kindText next.kind).head? ≠ some '\'') ∧ TicksApart (next :: items)

instance decidableTicksApart : (items : List Printed) → Decidable (TicksApart items)
  | [] => .isTrue trivial
  | [_] => .isTrue trivial
  | item :: next :: items =>
    have := decidableTicksApart (next :: items)
    inferInstanceAs (Decidable ((item.kind = .code (.word "'") → item.gap.length = 1 →
      (kindText next.kind).head? ≠ some '\'') ∧ TicksApart (next :: items)))

/-! One token. -/

theorem atBreak_head {cs : List Char} (h : AtBreak cs) : ∀ c ∈ cs.head?, isBlank c = true := by
  intro c hc
  cases cs with
  | nil => cases hc
  | cons d cs =>
    obtain rfl := Option.some.inj hc
    exact h

theorem wordToken_word {w tail : List Char} (h : PlainWord w)
    (hLet : lower (String.ofList w) ≠ "let") (hTail : AtBreak tail) (p : Pos) :
    wordToken (w ++ tail) p =
      .ok (codeToken (.word (String.ofList w)) p ⟨tail, advance p w⟩) := by
  have hRead := @readUntil_text isBlank w h.solid tail (atBreak_head hTail) p
  unfold wordToken
  rw [hRead]
  dsimp only
  rw [if_neg hLet, classify_word _ h.notNumeric]
  rfl

theorem isBlank_cases {c : Char} (h : isBlank c = true) : c = ' ' ∨ c = '\t' ∨ c = '\r' ∨ c = '\n' := by
  simpa [isBlank, or_assoc] using h

/-- An integer literal has no blank in it. -/
theorem integer_solid (n : IntegerText) : ∀ c ∈ n.text, isBlank c = false := by
  intro c hc
  apply Bool.eq_false_iff.mpr
  intro hBlank
  have hDigit : n.base.isDigitOf c = false := by
    rcases isBlank_cases hBlank with rfl | rfl | rfl | rfl <;> cases n.base <;> decide
  have hMarker : ∀ m ∈ n.base.markers, c ∉ m := by
    rcases isBlank_cases hBlank with rfl | rfl | rfl | rfl <;> cases n.base <;> decide
  have hSign : c ≠ '-' := by
    rintro rfl
    cases hBlank
  unfold IntegerText.text IntegerText.unsigned at hc
  rcases List.mem_append.mp hc with hc | hc
  · split at hc
    · exact hSign (List.mem_singleton.mp hc)
    · cases hc
  · rcases List.mem_append.mp hc with hc | hc
    · exact hMarker n.marker n.marked hc
    · have hLegal := n.legal c hc
      rw [hDigit] at hLegal
      cases hLegal

/-- An integer literal begins with a sign, a marker or a digit. -/
theorem integer_head (n : IntegerText) :
    ∃ c cs, n.text = c :: cs ∧ (c ∈ ['-', '$', '%', '#'] ∨ isDigit c = true) := by
  unfold IntegerText.text
  cases n.negative with
  | true => exact ⟨'-', n.unsigned, rfl, .inl (by decide)⟩
  | false =>
    by_cases h : n.base = .decimal
    · obtain ⟨hEq, hDigits⟩ := decimal_unsigned h
      cases hText : n.unsigned with
      | nil => exact absurd (hEq.symm.trans hText) n.nonempty
      | cons c cs => exact ⟨c, cs, rfl, .inr (hDigits c (hText ▸ List.mem_cons_self))⟩
    · unfold IntegerText.unsigned
      obtain ⟨negative, base, marker, digits, marked, nonempty, legal⟩ := n
      cases base with
      | decimal => exact absurd rfl h
      | hex | binary | decimalExplicit =>
        obtain rfl := List.mem_singleton.mp marked
        exact ⟨_, _, rfl, .inl (by decide)⟩
      | hex0x =>
        simp only [NumBase.markers, List.mem_cons, List.not_mem_nil, or_false] at marked
        rcases marked with rfl | rfl
        · exact ⟨_, _, rfl, .inr (by decide)⟩
        · exact ⟨_, _, rfl, .inr (by decide)⟩

theorem integer_head_ne {n : IntegerText} {c : Char} {cs : List Char} (h : n.text = c :: cs)
    {d : Char} (hd : d ∉ ['-', '$', '%', '#']) (hDigit : isDigit d = false) : c ≠ d := by
  obtain ⟨c', cs', hText, hHead⟩ := integer_head n
  rw [h] at hText
  obtain ⟨rfl, -⟩ := List.cons.inj hText
  rintro rfl
  rcases hHead with hHead | hHead
  · exact hd hHead
  · rw [hDigit] at hHead
    cases hHead

theorem toLower_digit {c : Char} (h : isDigit c = true) : c.toLower = c := by
  simp only [isDigit, Bool.and_eq_true, decide_eq_true_eq] at h
  have hHigh : c.val ≤ '9'.val := h.2
  have hNotUpper : ¬ (c.val ≥ 'A'.val ∧ c.val ≤ 'Z'.val) := by
    rintro ⟨hLow, -⟩
    have hBelow : 'A'.val ≤ '9'.val := UInt32.le_trans hLow hHigh
    exact absurd hBelow (by decide)
  unfold Char.toLower
  exact dif_neg hNotUpper

theorem wordToken_integer (n : IntegerText) {tail : List Char} (hTail : AtBreak tail) (p : Pos) :
    wordToken (n.text ++ tail) p =
      .ok (codeToken (.int n.value n.base (String.ofList n.text)) p ⟨tail, advance p n.text⟩) := by
  have hRead := @readUntil_text isBlank n.text (integer_solid n) tail (atBreak_head hTail) p
  have hLet : lower (String.ofList n.text) ≠ "let" := by
    obtain ⟨c, cs, hText, hHead⟩ := integer_head n
    rw [hText]
    intro hLower
    have hChars := congrArg String.toList hLower
    simp only [lower, String.toList_ofList, List.map_cons] at hChars
    have hFirst : c.toLower = 'l' := (List.cons.inj hChars).1
    rcases hHead with hHead | hHead
    · simp only [List.mem_cons, List.not_mem_nil, or_false] at hHead
      rcases hHead with rfl | rfl | rfl | rfl <;> revert hFirst <;> decide
    · rw [toLower_digit hHead] at hFirst
      subst hFirst
      cases hHead
  unfold wordToken
  rw [hRead]
  dsimp only
  rw [if_neg hLet, classify_integer]
  rfl

/-- A text that starts nothing else is taken up to the next blank. -/
theorem nextToken_solid {c : Char} {cs : List Char} {p : Pos}
    (hLine : ¬ (c = '\\' ∧ nextIsBlankOrEof cs = true))
    (hParen : ¬ (c = '(' ∧ nextIsBlankOrEof cs = true))
    (hChar : charLiteral (c :: cs) p = none) (hString : startsString (c :: cs) = false) :
    nextToken (c :: cs) p = wordToken (c :: cs) p := by
  have hLine' : (c = '\\' && nextIsBlankOrEof cs) = false := by simpa using hLine
  have hParen' : (c = '(' && nextIsBlankOrEof cs) = false := by simpa using hParen
  rw [nextToken.eq_def]
  dsimp only
  rw [hLine', hParen', hChar]
  simp only [Bool.false_eq_true, if_false]
  split
  case h_8 => rfl
  all_goals cases hString

theorem charLiteral_head {c : Char} (h : c ≠ '\'') (cs : List Char) (p : Pos) :
    charLiteral (c :: cs) p = none := by
  unfold charLiteral
  split
  · rename_i hEq
    exact absurd (List.cons.inj hEq).1 h
  · rename_i hEq
    exact absurd (List.cons.inj hEq).1 h
  · rfl

/-- No string starts at a character that is none of the four letters of an opener. -/
theorem startsString_head {c : Char} (h : c ∉ ['.', 'S', 's', 'C', 'c']) (cs : List Char) :
    startsString (c :: cs) = false := by
  simp only [List.mem_cons, List.not_mem_nil, or_false, not_or] at h
  unfold startsString
  split
  all_goals first
    | rfl
    | (rename_i hEq
       obtain ⟨rfl, -⟩ := List.cons.inj hEq
       simp at h)

theorem nextToken_integer (n : IntegerText) {tail : List Char} (hTail : AtBreak tail) (p : Pos) :
    nextToken (n.text ++ tail) p =
      .ok (codeToken (.int n.value n.base (String.ofList n.text)) p ⟨tail, advance p n.text⟩) := by
  have hWord := wordToken_integer n hTail p
  obtain ⟨c, cs, hText, hHead⟩ := integer_head n
  have hNe := fun {d : Char} => integer_head_ne (d := d) hText
  rw [← hWord, hText, List.cons_append]
  apply nextToken_solid
  · exact fun h => hNe (by decide) (by decide) h.1
  · exact fun h => hNe (by decide) (by decide) h.1
  · exact charLiteral_head (hNe (by decide) (by decide)) _ p
  · apply startsString_head
    simp only [List.mem_cons, List.not_mem_nil, or_false, not_or]
    exact ⟨hNe (by decide) (by decide), hNe (by decide) (by decide), hNe (by decide) (by decide),
      hNe (by decide) (by decide), hNe (by decide) (by decide)⟩

theorem nextToken_char {value : Int} {raw : List Char} (h : IsCharText value raw)
    {tail : List Char} (hTail : AtBreak tail) (p : Pos) :
    nextToken (raw ++ tail) p =
      .ok (codeToken (.int value .decimal (String.ofList raw)) p ⟨tail, advance p raw⟩) := by
  have hLiteral : ∃ v : Nat, (v : Int) = value ∧
      charLiteral (raw ++ tail) p = some (v, String.ofList raw, ⟨tail, advance p raw⟩) := by
    rcases h with ⟨c, hAscii, rfl, rfl⟩ | ⟨esc, code, hCode, rfl, rfl⟩
    · refine ⟨c.toNat, rfl, ?_⟩
      simp only [List.cons_append, List.nil_append]
      unfold charLiteral
      split
      · -- the quoted backslash is no escape: a break follows the closing quote
        rename_i esc rest hEq
        simp only [List.cons.injEq, true_and] at hEq
        obtain ⟨rfl, rfl, rfl⟩ := hEq
        cases hTail
      · rename_i d rest _ hEq
        simp only [List.cons.injEq, true_and] at hEq
        obtain ⟨rfl, rfl⟩ := hEq
        rw [if_pos hAscii]
        rfl
      · rename_i hNone
        exact absurd rfl (hNone c tail)
    · refine ⟨code, rfl, ?_⟩
      simp only [List.cons_append, List.nil_append, charLiteral, hCode]
      rfl
  obtain ⟨v, rfl, hLiteral⟩ := hLiteral
  have hQuote : ∃ cs, raw = '\'' :: cs := by
    rcases h with ⟨c, _, _, rfl⟩ | ⟨esc, code, _, _, rfl⟩
    · exact ⟨_, rfl⟩
    · exact ⟨_, rfl⟩
  obtain ⟨cs, rfl⟩ := hQuote
  rw [List.cons_append] at hLiteral ⊢
  rw [nextToken.eq_def]
  simp [hLiteral]

/-- Behind a word with no literal in it only a tick can open one: the blank between two quotes. -/
theorem charLiteral_word {w tail : List Char} (hNe : w ≠ []) (h : charLiteral w Pos.start = none)
    (hTail : AtBreak tail) (hTick : w = ['\''] → tail.tail.head? ≠ some '\'') (p : Pos) :
    charLiteral (w ++ tail) p = none := by
  have hHead := atBreak_head hTail
  -- a literal is three or four characters: shorter words would need the blank for it
  match w, hNe with
  | [a], _ =>
    by_cases ha : a = '\''
    · subst ha
      match tail with
      | [] => rfl
      | [t] => simp [charLiteral]
      -- `' '`: the blank would be the character and `u` the closing tick
      | t :: u :: tail =>
        have hBlank : isBlank t = true := hHead t rfl
        have hu : u ≠ '\'' := by simpa using hTick rfl
        have ht : t ≠ '\\' := by
          rintro rfl
          cases hBlank
        simp only [List.cons_append, List.nil_append]
        unfold charLiteral
        split
        · rename_i hEq
          simp only [List.cons.injEq] at hEq
          exact absurd hEq.2.1 ht
        · rename_i hEq
          simp only [List.cons.injEq] at hEq
          exact absurd hEq.2.2.1 hu
        · rfl
    · exact charLiteral_head ha _ p
  | [a, b], _ =>
    match tail with
    | [] => simp [charLiteral]
    -- the blank is neither a character that can be escaped nor a closing tick
    | t :: tail =>
      have hBlank : isBlank t = true := hHead t rfl
      simp only [List.cons_append, List.nil_append]
      unfold charLiteral
      split
      · rename_i esc rest hEq
        simp only [List.cons.injEq] at hEq
        obtain ⟨rfl, rfl, rfl, rfl⟩ := hEq
        rcases isBlank_cases hBlank with rfl | rfl | rfl | rfl <;> rfl
      · rename_i hEq
        simp only [List.cons.injEq] at hEq
        obtain ⟨-, -, rfl, -⟩ := hEq
        cases hBlank
      · rfl
  -- the blank cannot close an escape, and a plain literal lies inside the word
  | [a, b, c], _ =>
    simp only [List.cons_append, List.nil_append]
    unfold charLiteral at h ⊢
    split
    · rename_i esc rest hEq
      simp only [List.cons.injEq] at hEq
      obtain ⟨rfl, rfl, rfl, rfl⟩ := hEq
      cases hHead _ rfl
    · rename_i d rest _ hEq
      simp only [List.cons.injEq] at hEq
      obtain ⟨rfl, rfl, rfl, rfl⟩ := hEq
      simp only at h
      split at h
      · cases h
      · rename_i hWide
        rw [if_neg hWide]
    · rfl
  -- both literals lie inside the word
  | a :: b :: c :: d :: w, _ =>
    simp only [List.cons_append]
    unfold charLiteral at h ⊢
    split
    · rename_i esc rest hEq
      simp only [List.cons.injEq] at hEq
      obtain ⟨rfl, rfl, rfl, rfl, rfl⟩ := hEq
      simp only at h
      split at h
      · cases h
      · rfl
    · rename_i e rest hFirst hEq
      simp only [List.cons.injEq] at hEq
      obtain ⟨rfl, rfl, rfl, rfl⟩ := hEq
      split at h
      · rename_i hEq
        simp only [List.cons.injEq] at hEq
        obtain ⟨-, rfl, rfl, rfl, rfl⟩ := hEq
        exact (hFirst _ rfl rfl).elim
      · rename_i hEq
        simp only [List.cons.injEq] at hEq
        obtain ⟨-, rfl, -, rfl⟩ := hEq
        split at h
        · cases h
        · rename_i hWide
          rw [if_neg hWide]
      · rename_i hSecond
        exact absurd rfl (hSecond _ _)
    · rfl

theorem startsString_word {w tail : List Char} (hNe : w ≠ []) (h : startsString w = false)
    (hTail : AtBreak tail) : startsString (w ++ tail) = false := by
  have hHead := atBreak_head hTail
  match w, hNe with
  | [a], _ =>
    simp only [List.cons_append, List.nil_append]
    unfold startsString
    split
    all_goals first
      | rfl
      | (rename_i hEq
         simp only [List.cons.injEq] at hEq
         obtain ⟨-, rfl⟩ := hEq
         cases hHead _ rfl)
  | [a, b], _ =>
    simp only [List.cons_append, List.nil_append]
    unfold startsString
    split
    all_goals first
      | rfl
      | (rename_i hEq
         simp only [List.cons.injEq] at hEq
         obtain ⟨rfl, rfl, rfl⟩ := hEq
         first
           | exact absurd (hHead '"' rfl) (by decide)
           | cases h)
  | a :: b :: c :: w, _ =>
    simp only [List.cons_append]
    unfold startsString
    split
    all_goals first
      | rfl
      | (rename_i hEq
         simp only [List.cons.injEq] at hEq
         obtain ⟨rfl, rfl, hEq⟩ := hEq
         first
           | cases h
           | (obtain ⟨rfl, -⟩ := hEq
              cases h))

theorem nextToken_word {w tail : List Char} (h : PlainWord w)
    (hLet : lower (String.ofList w) ≠ "let") (hTail : AtBreak tail)
    (hTick : w = ['\''] → tail.tail.head? ≠ some '\'') (p : Pos) :
    nextToken (w ++ tail) p =
      .ok (codeToken (.word (String.ofList w)) p ⟨tail, advance p w⟩) := by
  rw [← wordToken_word h hLet hTail p]
  have hChar := charLiteral_word h.nonempty h.notChar hTail hTick p
  have hString := startsString_word h.nonempty h.notString hTail
  have hBreak : ∀ c cs, w = c :: cs → cs ≠ [] → nextIsBlankOrEof (cs ++ tail) = false := by
    intro c cs hEq hNe
    cases cs with
    | nil => exact absurd rfl hNe
    | cons d cs =>
      show isBlank d = false
      exact h.solid d (by simp [hEq])
  cases w with
  | nil => exact absurd rfl h.nonempty
  | cons c cs =>
    rw [List.cons_append] at hChar hString ⊢
    have hStarter : ∀ d, c :: cs ≠ [d] → ¬ (c = d ∧ nextIsBlankOrEof (cs ++ tail) = true) := by
      rintro d hd ⟨rfl, hEof⟩
      have hNe : cs ≠ [] := fun hNil => hd (by rw [hNil])
      rw [hBreak c cs rfl hNe] at hEof
      cases hEof
    exact nextToken_solid (hStarter _ h.notComment.1) (hStarter _ h.notComment.2) hChar hString

theorem stringToken_string {kind : StringKind} {value tail : List Char} (h : '"' ∉ value)
    (p start : Pos) :
    stringToken kind (' ' :: value ++ '"' :: tail) p start =
      .ok (codeToken (.str (String.ofList value) kind) start
        ⟨tail, advance p (' ' :: value ++ ['"'])⟩) := by
  have hValue : ∀ c ∈ value, (c == '"') = false := by
    intro c hc
    have hNe : c ≠ '"' := fun hEq => h (hEq ▸ hc)
    simpa using hNe
  have hRead := @readUntil_text _ value hValue ('"' :: tail) (by simp) (step p ' ')
  unfold stringToken readQuotedString
  simp only [List.cons_append, skipSeparator, decide_true, Bool.true_or, if_true]
  rw [hRead]
  simp [Except.map, advance_append]

theorem nextToken_string {kind : StringKind} {value tail : List Char} (h : '"' ∉ value) (p : Pos) :
    nextToken (stringOpener kind ++ ' ' :: value ++ '"' :: tail) p =
      .ok (codeToken (.str (String.ofList value) kind) p
        ⟨tail, advance p (stringOpener kind ++ ' ' :: value ++ ['"'])⟩) := by
  have hOpen : nextToken (stringOpener kind ++ ' ' :: value ++ '"' :: tail) p =
      stringToken kind (' ' :: value ++ '"' :: tail) (advance p (stringOpener kind)) p := by
    cases kind <;> rfl
  rw [hOpen, stringToken_string h, List.append_assoc, advance_append p]

theorem nextToken_blockComment {text tail : List Char} (h : ')' ∉ text) (p : Pos) :
    nextToken ('(' :: ' ' :: text ++ ')' :: tail) p =
      .ok (some (⟨.blockComment (String.ofList text), ⟨p, advance p ('(' :: ' ' :: text ++ [')'])⟩⟩,
        ⟨tail, advance p ('(' :: ' ' :: text ++ [')'])⟩)) := by
  have hText : ∀ c ∈ text, (c == ')') = false := by
    intro c hc
    have hNe : c ≠ ')' := fun hEq => h (hEq ▸ hc)
    simpa using hNe
  have hRead := @readUntil_text _ text hText (')' :: tail) (by simp) (step (step p '(') ' ')
  have hOpen : nextToken ('(' :: ' ' :: text ++ ')' :: tail) p =
      (readParenComment (text ++ ')' :: tail) (step (step p '(') ' ') p).map fun r =>
        some (⟨.blockComment r.1, ⟨p, r.2.pos⟩⟩, r.2) := rfl
  rw [hOpen]
  unfold readParenComment
  rw [hRead]
  simp [Except.map, advance_append]

theorem trimEndReturns_kept {text : List Char} (h : text.getLast? ≠ some '\r') :
    trimEndReturns text = text := by
  unfold trimEndReturns
  cases hRev : text.reverse with
  | nil => simpa using hRev.symm
  | cons c cs =>
    have hLast : text.getLast? = some c := by
      rw [← List.head?_reverse, hRev]
      rfl
    have hNe : (c == '\r') = false := by
      have hC : c ≠ '\r' := fun hEq => h (hEq ▸ hLast)
      simpa using hC
    rw [List.dropWhile_cons_of_neg (by simp [hNe]), ← hRev, List.reverse_reverse]

theorem nextToken_lineComment {text tail : List Char} (h : '\n' ∉ text)
    (hReturn : text.getLast? ≠ some '\r') (p : Pos) :
    nextToken ('\\' :: ' ' :: text ++ '\n' :: tail) p =
      .ok (some (⟨.lineComment (String.ofList text), ⟨p, advance p ('\\' :: ' ' :: text ++ ['\n'])⟩⟩,
        ⟨tail, advance p ('\\' :: ' ' :: text ++ ['\n'])⟩)) := by
  have hText : ∀ c ∈ text, (c == '\n') = false := by
    intro c hc
    have hNe : c ≠ '\n' := fun hEq => h (hEq ▸ hc)
    simpa using hNe
  have hRead := @readUntil_text _ text hText ('\n' :: tail) (by simp) (step (step p '\\') ' ')
  have hOpen : nextToken ('\\' :: ' ' :: text ++ '\n' :: tail) p =
      .ok (some (⟨.lineComment (readToEol (text ++ '\n' :: tail) (step (step p '\\') ' ')).1,
          ⟨p, (readToEol (text ++ '\n' :: tail) (step (step p '\\') ' ')).2.pos⟩⟩,
        (readToEol (text ++ '\n' :: tail) (step (step p '\\') ' ')).2)) := rfl
  rw [hOpen]
  unfold readToEol
  rw [hRead]
  dsimp only
  rw [trimEndReturns_kept hReturn]
  simp [advance_append]

/-- A printed token in front of a break is read back, and the cursor is behind its text. -/
theorem nextToken_kind {k : Kind} (hPrintable : Printable k) (hSelf : SelfContained k)
    {tail : List Char} (hTail : AtBreak tail)
    (hTick : k = .code (.word "'") → tail.tail.head? ≠ some '\'') (p : Pos) :
    nextToken (kindText k ++ tail) p =
      .ok (some (⟨k, ⟨p, advance p (kindText k)⟩⟩, ⟨tail, advance p (kindText k)⟩)) := by
  cases k with
  | code t =>
    cases t with
    | word s =>
      have hLet : lower (String.ofList s.toList) ≠ "let" := by
        rw [String.ofList_toList]
        exact hSelf
      have hTick' : s.toList = ['\''] → tail.tail.head? ≠ some '\'' := by
        intro hEq
        have hs : s = "'" := String.toList_injective hEq
        exact hTick (by rw [hs])
      have hWord := nextToken_word hPrintable hLet hTail hTick' p
      simpa [codeToken, kindText] using hWord
    | int value base raw =>
      rcases hPrintable with ⟨n, hRaw, rfl, rfl⟩ | ⟨rfl, hChar⟩
      · have hInt := nextToken_integer n hTail p
        rw [← hRaw] at hInt
        simpa [codeToken, kindText] using hInt
      · have hInt := nextToken_char hChar hTail p
        simpa [codeToken, kindText] using hInt
    | float value raw => exact hPrintable.elim
    | str value kind =>
      have hString := @nextToken_string kind _ tail hPrintable p
      simpa [codeToken, kindText] using hString
    | letBlock text => exact hPrintable.elim
  | lineComment text =>
    have hLine := @nextToken_lineComment _ tail hPrintable hSelf p
    simpa [kindText] using hLine
  | blockComment text =>
    have hBlock := @nextToken_blockComment _ tail hPrintable p
    simpa [kindText] using hBlock

/-! A printed list. -/

theorem lexFrom_token {cs : List Char} {p : Pos} {cur next : Cursor} {t : Token}
    (hSkip : skipWs cs p = cur) (h : nextToken cur.rest cur.pos = .ok (some (t, next))) :
    lexFrom cs p = (lexFrom next.rest next.pos).map (t :: ·) := by
  subst hSkip
  rw [lexFrom.eq_def]
  split
  · rename_i e hNext
    rw [h] at hNext
    cases hNext
  · rename_i hNext
    rw [h] at hNext
    cases hNext
  · rename_i t' cur hNext
    rw [h] at hNext
    obtain ⟨rfl, rfl⟩ := Prod.mk.inj (Option.some.inj (Except.ok.inj hNext))
    rfl

theorem lexFrom_blank {gap : List Char} (h : Blank gap) (p : Pos) : lexFrom gap p = .ok [] := by
  have hSkip := skipWs_blank h [] p
  rw [List.append_nil] at hSkip
  rw [lexFrom.eq_def, hSkip]
  rfl

/-- A printed token begins with a solid character. -/
theorem kindText_head {k : Kind} (h : Printable k) :
    ∃ c cs, kindText k = c :: cs ∧ isBlank c = false := by
  cases k with
  | code t =>
    cases t with
    | word s =>
      have hWord : PlainWord s.toList := h
      cases hText : s.toList with
      | nil => exact absurd hText hWord.nonempty
      | cons c cs => exact ⟨c, cs, hText, hWord.solid c (by simp [hText])⟩
    | int value base raw =>
      rcases h with ⟨n, hRaw, -, -⟩ | ⟨-, hChar⟩
      · obtain ⟨c, cs, hText, -⟩ := integer_head n
        exact ⟨c, cs, hRaw.trans hText, integer_solid n c (by simp [hText])⟩
      · rcases hChar with ⟨c, -, -, hRaw⟩ | ⟨esc, code, -, -, hRaw⟩
        · exact ⟨_, _, hRaw, by decide⟩
        · exact ⟨_, _, hRaw, by decide⟩
    | float value raw => exact h.elim
    | str value kind => cases kind <;> exact ⟨_, _, rfl, by decide⟩
    | letBlock text => exact h.elim
  | lineComment text => exact ⟨_, _, rfl, by decide⟩
  | blockComment text => exact ⟨_, _, rfl, by decide⟩

theorem skipWs_solid {c : Char} (h : isBlank c = false) (cs : List Char) (p : Pos) :
    skipWs (c :: cs) p = ⟨c :: cs, p⟩ := by
  rw [skipWs, h, if_neg Bool.false_ne_true]

theorem printedText_cons (item : Printed) (items : List Printed) :
    printedText (item :: items) = kindText item.kind ++ (item.gap ++ printedText items) := by
  rw [printedText, List.flatMap_cons, List.append_assoc]
  rfl

theorem spaced_blank {item : Printed} {items : List Printed} (h : Spaced (item :: items)) :
    Blank item.gap := by
  cases items with
  | nil => exact h
  | cons next items => exact h.2.1

theorem spaced_tail {item : Printed} {items : List Printed} (h : Spaced (item :: items)) :
    Spaced items := by
  cases items with
  | nil => trivial
  | cons next items => exact h.2.2

/-- A spaced token ends at a break. -/
theorem spaced_atBreak {item : Printed} {items : List Printed} (h : Spaced (item :: items)) :
    AtBreak (item.gap ++ printedText items) := by
  have hBlank := spaced_blank h
  cases hGap : item.gap with
  | cons c gap =>
    rw [hGap] at hBlank
    exact hBlank c List.mem_cons_self
  | nil =>
    cases items with
    | nil => rfl
    | cons next items => exact absurd hGap h.1

theorem ticksApart_next {item : Printed} {items : List Printed} (h : TicksApart (item :: items))
    (hSpaced : Spaced (item :: items)) (hPrintable : ∀ i ∈ items, Printable i.kind)
    (hTick : item.kind = .code (.word "'")) :
    (item.gap ++ printedText items).tail.head? ≠ some '\'' := by
  have hBlank := spaced_blank hSpaced
  cases hGap : item.gap with
  | nil =>
    cases items with
    | nil => simp [printedText]
    | cons next items => exact absurd hGap hSpaced.1
  | cons c gap =>
    rw [hGap] at hBlank
    cases gap with
    | cons d gap =>
      have hd : isBlank d = true := hBlank d (by simp)
      intro hEq
      obtain rfl := Option.some.inj hEq
      cases hd
    | nil =>
      cases items with
      | nil => simp [printedText]
      | cons next items =>
        obtain ⟨e, es, hText, -⟩ := kindText_head (hPrintable next (by simp))
        have hApart := h.1 hTick (by rw [hGap]; rfl)
        rw [printedText_cons, hText]
        rw [hText] at hApart
        exact hApart

theorem ticksApart_tail {item : Printed} {items : List Printed} (h : TicksApart (item :: items)) :
    TicksApart items := by
  cases items with
  | nil => trivial
  | cons next items => exact h.2

/-- The loop reads a printed list back from any position, blanks in front of it skipped. -/
theorem lexFrom_printed (items : List Printed) (hPrintable : ∀ i ∈ items, Printable i.kind)
    (hSelf : ∀ i ∈ items, SelfContained i.kind) (hSpaced : Spaced items) (hTicks : TicksApart items)
    {gap : List Char} (hGap : Blank gap) (p : Pos) :
    lexFrom (gap ++ printedText items) p = .ok (printedTokens (advance p gap) items) := by
  induction items generalizing gap p with
  | nil =>
    rw [printedText, List.flatMap_nil, List.append_nil]
    exact lexFrom_blank hGap p
  | cons item items ih =>
    have hItem := hPrintable item List.mem_cons_self
    have hRest : ∀ i ∈ items, Printable i.kind := fun i hi => hPrintable i (List.mem_cons_of_mem _ hi)
    have hRestSelf : ∀ i ∈ items, SelfContained i.kind :=
      fun i hi => hSelf i (List.mem_cons_of_mem _ hi)
    have hSkip : skipWs (gap ++ printedText (item :: items)) p =
        ⟨kindText item.kind ++ (item.gap ++ printedText items), advance p gap⟩ := by
      obtain ⟨c, cs, hText, hSolid⟩ := kindText_head hItem
      rw [skipWs_blank hGap, printedText_cons, hText, List.cons_append, skipWs_solid hSolid]
    have hToken := nextToken_kind hItem (hSelf item List.mem_cons_self) (spaced_atBreak hSpaced)
      (ticksApart_next hTicks hSpaced hRest) (advance p gap)
    rw [lexFrom_token hSkip hToken]
    have hMore := ih hRest hRestSelf (spaced_tail hSpaced) (ticksApart_tail hTicks)
      (spaced_blank hSpaced) (advance (advance p gap) (kindText item.kind))
    rw [hMore, printedTokens, advance_append]
    rfl

/-- The tokens of a printed list are read back, each with the span of its text. -/
theorem lex_printed (items : List Printed) (hPrintable : ∀ i ∈ items, Printable i.kind)
    (hSelf : ∀ i ∈ items, SelfContained i.kind) (hSpaced : Spaced items) (hTicks : TicksApart items)
    {lead : List Char} (hLead : Blank lead) :
    lex (String.ofList (lead ++ printedText items)) =
      .ok (printedTokens (advance Pos.start lead) items) := by
  unfold lex
  rw [String.toList_ofList]
  exact lexFrom_printed items hPrintable hSelf hSpaced hTicks hLead Pos.start

/-- A word that begins with a letter or a tick is not numeric. -/
theorem notNumeric_head {c : Char} {cs : List Char} (hFloat : looksLikeFloat (c :: cs) = false)
    (hHex : startsHex0x (c :: cs) = false) (hDigit : isDigit c = false)
    (hMark : c ∉ ['-', '$', '%', '#']) : ¬ IsNumeric (c :: cs) := by
  rintro (h | h | ⟨n, h⟩)
  · rw [hFloat] at h
    cases h
  · rw [hHex] at h
    cases h
  · exact integer_head_ne h hMark hDigit rfl

theorem plainWord_tick : PlainWord ['\''] where
  nonempty := by decide
  solid := List.forall_mem_cons.mpr ⟨rfl, List.forall_mem_nil _⟩
  notNumeric := notNumeric_head (by decide) (by decide) (by decide) (by decide)
  notComment := by decide
  notString := by decide
  notChar := by decide

theorem plainWord_let : PlainWord ['l', 'e', 't'] where
  nonempty := by decide
  solid := by
    simp only [List.forall_mem_cons]
    exact ⟨rfl, rfl, rfl, List.forall_mem_nil _⟩
  notNumeric := notNumeric_head (by decide) (by decide) (by decide) (by decide)
  notComment := by decide
  notString := by decide
  notChar := by decide

/-- Two ticks with a line end between them, and a quoted quote. -/
def ticksAndQuotes : List Printed :=
  [⟨.code (.word "'"), [' ', ' ']⟩, ⟨.code (.word "'"), ['\n']⟩,
    ⟨.code (.str "a\\" .dotQuote), [' ']⟩, ⟨.code (.int 34 .decimal "'\"'"), []⟩]

theorem lex_ticksAndQuotes :
    lex (String.ofList ([' '] ++ printedText ticksAndQuotes)) =
      .ok (printedTokens (advance Pos.start [' ']) ticksAndQuotes) := by
  refine lex_printed ticksAndQuotes ?_ (by decide) (by decide) (by decide) (by decide)
  simp only [ticksAndQuotes, List.forall_mem_cons]
  have hString : '"' ∉ "a\\".toList := by decide
  exact ⟨plainWord_tick, plainWord_tick, hString, .inr ⟨rfl, .inl ⟨'"', by decide⟩⟩, by simp⟩

/-- Printed as it should be and not read back. -/
structure Misread (items : List Printed) : Prop where
  printable : ∀ i ∈ items, Printable i.kind
  spaced : Spaced items
  differs : lex (String.ofList (printedText items)) ≠ .ok (printedTokens Pos.start items)

theorem misread_let : Misread [⟨.code (.word "let"), []⟩] where
  printable := by
    simp only [List.forall_mem_cons]
    exact ⟨plainWord_let, by simp⟩
  spaced := by decide
  differs := by
    have hRejected : (lex "let").isOk = false := by decide +kernel
    have hText : String.ofList (printedText [⟨.code (.word "let"), []⟩]) = "let" := by decide
    intro h
    rw [← hText, h] at hRejected
    cases hRejected

theorem misread_return : Misread [⟨.lineComment "a\r", []⟩] where
  printable := by
    have hText : '\n' ∉ "a\r".toList := by decide
    simp only [List.forall_mem_cons]
    exact ⟨hText, by simp⟩
  spaced := by decide
  differs := by
    have hShort : (lex "\\ a\r\n").toOption.map (List.map Token.kind) = some [.lineComment "a"] := by
      decide +kernel
    have hText : String.ofList (printedText [⟨.lineComment "a\r", []⟩]) = "\\ a\r\n" := by decide
    intro h
    rw [← hText, h] at hShort
    revert hShort
    decide

theorem misread_ticks : Misread [⟨.code (.word "'"), [' ']⟩, ⟨.code (.word "'"), []⟩] where
  printable := by
    simp only [List.forall_mem_cons]
    exact ⟨plainWord_tick, plainWord_tick, by simp⟩
  spaced := by decide
  differs := by
    have hBlank : (lex "' '").toOption.map (List.map Token.kind) =
        some [.code (.int 32 .decimal "' '")] := by
      decide +kernel
    have hText : String.ofList (printedText [⟨.code (.word "'"), [' ']⟩, ⟨.code (.word "'"), []⟩]) =
        "' '" := by decide
    intro h
    rw [← hText, h] at hBlank
    revert hBlank
    decide

/-- The word LET, a return at the end of a line comment, and two ticks one blank apart. -/
theorem lex_not_printed :
    Misread [⟨.code (.word "let"), []⟩] ∧ Misread [⟨.lineComment "a\r", []⟩] ∧
      Misread [⟨.code (.word "'"), [' ']⟩, ⟨.code (.word "'"), []⟩] :=
  ⟨misread_let, misread_return, misread_ticks⟩

end FactorForth.Correctness
