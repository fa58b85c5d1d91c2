import FactorForth.Correctness.LexText
import Mathlib.Data.Rat.Defs
import Mathlib.Tactic.FieldSimp

/-! The numbers of the language and what the tokeniser makes of them: integers with a base and with
separators, and floats with a point or an exponent. Some of them are taken for words, and some words are
refused as numbers. -/

namespace FactorForth.Correctness
open FactorForth.Compiler FactorForth.Compiler.Lex

def NumBase.digit (base : NumBase) (c : Char) : Bool := base.isDigitOf c && c != '_'

/-- A signed integer in one of the bases. Underscores may stand between its digits. -/
structure Numeral where
  negative : Bool
  base : NumBase
  marker : List Char
  digits : List Char
  marked : marker ∈ base.markers
  legal : ∀ c ∈ digits, NumBase.digit base c = true ∨ c = '_'
  first : ∃ c, digits.head? = some c ∧ NumBase.digit base c = true
  last : ∃ c, digits.getLast? = some c ∧ NumBase.digit base c = true

namespace Numeral

def text (n : Numeral) : List Char := (if n.negative then ['-'] else []) ++ (n.marker ++ n.digits)

def magnitude (n : Numeral) : Int := (n.digits.filter (· ≠ '_')).foldl (appendDigit n.base.radix) 0

/-- The cell that the number stands for. -/
def value (n : Numeral) : Int := wrap64 (if n.negative then -n.magnitude else n.magnitude)

end Numeral

/-- The exponent of a float. ANS lets the digits be absent. -/
structure Exponent where
  mark : Char
  sign : List Char
  digits : List Char
  marked : mark = 'e' ∨ mark = 'E'
  signed : sign ∈ [[], ['+'], ['-']]
  legal : ∀ c ∈ digits, isDigit c = true

/-- A decimal number with or without a fraction and an exponent. -/
structure Decimal where
  sign : List Char
  whole : List Char
  fraction : Option (List Char)
  exponent : Option Exponent
  signed : sign ∈ [[], ['+'], ['-']]
  wholeLegal : ∀ c ∈ whole, isDigit c = true
  fractionLegal : ∀ c ∈ fraction.getD [], isDigit c = true
  mantissa : whole ++ fraction.getD [] ≠ []

def withSign (sign : List Char) (n : Int) : Int := if sign = ['-'] then -n else n

def digitsNumber (digits : List Char) : Int := digits.foldl (appendDigit 10) 0

def Exponent.text (e : Exponent) : List Char := e.mark :: (e.sign ++ e.digits)

def Exponent.value (e : Exponent) : Int := withSign e.sign (digitsNumber e.digits)

namespace Decimal

def fractionText (d : Decimal) : List Char :=
  match d.fraction with
  | some digits => '.' :: digits
  | none => []

def exponentText (d : Decimal) : List Char :=
  match d.exponent with
  | some e => e.text
  | none => []

def text (d : Decimal) : List Char := d.sign ++ (d.whole ++ (d.fractionText ++ d.exponentText))

/-- The number that the text stands for. -/
def value (d : Decimal) : ℚ :=
  withSign d.sign (digitsNumber (d.whole ++ d.fraction.getD [])) *
    10 ^ ((d.exponent.map Exponent.value).getD 0 - ((d.fraction.getD []).length : Int))

/-- A point or an exponent makes a float of it. -/
def IsFloat (d : Decimal) : Prop := d.fraction.isSome = true ∨ d.exponent.isSome = true

end Decimal

/-- A token up to the next blank that is no comment, string, character literal or LET block. -/
structure BlankDelimited (w tail : List Char) : Prop where
  nonempty : w ≠ []
  solid : ∀ c ∈ w, isBlank c = false
  ends : AtBreak tail
  notComment : w ≠ ['\\'] ∧ w ≠ ['(']
  notString : startsString (w ++ tail) = false
  notChar : ∀ p, charLiteral (w ++ tail) p = none
  notLet : lower (String.ofList w) ≠ "let"

/-- The tokeniser yields `t` for the text `w` and goes on behind it. -/
def Yields (w tail : List Char) (p : Pos) (t : Tok) : Prop :=
  nextToken (w ++ tail) p = .ok (codeToken t p ⟨tail, advance p w⟩)

/-- A number is read as its value: a float by a text that stands for the same number. All else is read
as a word. -/
structure ReadExactly (w tail : List Char) (p : Pos) : Prop where
  integer : ∀ n : Numeral, n.text = w → Yields w tail p (.int n.value n.base (String.ofList w))
  float : ∀ d : Decimal, d.IsFloat → d.text = w →
    Yields w tail p (.float ⟨String.ofList w⟩ (String.ofList w)) ∧
      ∃ read : Decimal, read.text = stripBareExponent w ∧ read.value = d.value
  word : (¬ ∃ n : Numeral, n.text = w) → (¬ ∃ d : Decimal, d.IsFloat ∧ d.text = w) →
    Yields w tail p (.word (String.ofList w))

/-- `-0x` before digits and underscores. -/
def StartsMinusHex (w : List Char) : Prop :=
  ∃ rest, w = '-' :: rest ∧ startsHex0x rest = true ∧ rest.drop 2 ≠ [] ∧
    ∀ c ∈ rest.drop 2, NumBase.hex0x.isDigitOf c = true

/-- Separators are taken behind `0x` alone, an exponent that has a sign needs digits, and what is no
number must not look like one. -/
structure Recognisable (w : List Char) : Prop where
  separators : ∀ n : Numeral, n.text = w → '_' ∈ n.digits → n.base = .hex0x
  exponent : ∀ d : Decimal, d.text = w → ∀ e, d.exponent = some e → e.sign ≠ [] → e.digits ≠ []
  other : (¬ ∃ n : Numeral, n.text = w) → (¬ ∃ d : Decimal, d.IsFloat ∧ d.text = w) →
    looksLikeFloat w = false ∧ startsHex0x w = false ∧ ¬ StartsMinusHex w

/-! The token is classified as it stands. -/

section Token
variable {w tail : List Char}

theorem BlankDelimited.nextToken_eq (h : BlankDelimited w tail) (p : Pos) :
    nextToken (w ++ tail) p =
      (classify ⟨p, advance p w⟩ w).map fun t => codeToken t p ⟨tail, advance p w⟩ := by
  have hRead := @readUntil_text isBlank w h.solid tail (atBreak_head h.ends) p
  have hWord : wordToken (w ++ tail) p =
      (classify ⟨p, advance p w⟩ w).map fun t => codeToken t p ⟨tail, advance p w⟩ := by
    unfold wordToken
    rw [hRead]
    dsimp only
    rw [if_neg h.notLet]
  rw [← hWord]
  obtain ⟨nonempty, solid, ends, notComment, notString, notChar, notLet⟩ := h
  cases w with
  | nil => exact absurd rfl nonempty
  | cons c cs =>
    -- a mark with a blank behind it is the whole token
    have hAlone : nextIsBlankOrEof (cs ++ tail) = true → cs = [] := by
      cases cs with
      | nil => exact fun _ => rfl
      | cons d cs =>
        intro hBlank
        have hSolid := solid d (by simp)
        rw [List.cons_append, nextIsBlankOrEof, hSolid] at hBlank
        cases hBlank
    apply nextToken_solid
    · rintro ⟨rfl, hBlank⟩
      exact notComment.1 (by rw [hAlone hBlank])
    · rintro ⟨rfl, hBlank⟩
      exact notComment.2 (by rw [hAlone hBlank])
    · exact notChar p
    · exact notString

theorem BlankDelimited.yields_iff (h : BlankDelimited w tail) {p : Pos} {t : Tok} :
    Yields w tail p t ↔ classify ⟨p, advance p w⟩ w = .ok t := by
  rw [Yields, h.nextToken_eq]
  cases classify ⟨p, advance p w⟩ w with
  | error e => simp [Except.map]
  | ok t' => simp [Except.map, codeToken]

end Token

/-! Floats. -/

theorem dropSign_other {c : Char} (hPlus : c ≠ '+') (hMinus : c ≠ '-') (cs : List Char) :
    dropSign (c :: cs) = c :: cs := by
  unfold dropSign
  split
  · rename_i hEq
    exact absurd (List.cons.inj hEq).1 hPlus
  · rename_i hEq
    exact absurd (List.cons.inj hEq).1 hMinus
  · rfl

theorem mem_sign {sign : List Char} (h : sign ∈ [[], ['+'], ['-']]) {c : Char} (hc : c ∈ sign) :
    c = '+' ∨ c = '-' := by
  simp only [List.mem_cons, List.not_mem_nil, or_false] at h
  rcases h with rfl | rfl | rfl
  · cases hc
  · exact .inl (List.mem_singleton.mp hc)
  · exact .inr (List.mem_singleton.mp hc)

namespace Exponent
variable (e : Exponent)

theorem dropSign_eq : dropSign (e.sign ++ e.digits) = e.digits := by
  have hSigned := e.signed
  simp only [List.mem_cons, List.not_mem_nil, or_false] at hSigned
  rcases hSigned with hSign | hSign | hSign
  · rw [hSign]
    cases hDigits : e.digits with
    | nil => rfl
    | cons c cs =>
      have hc := e.legal c (hDigits ▸ List.mem_cons_self)
      have hPlus : c ≠ '+' := isDigit_ne hc (by decide)
      have hMinus : c ≠ '-' := isDigit_ne hc (by decide)
      rw [List.nil_append, dropSign_other hPlus hMinus]
  · rw [hSign]
    rfl
  · rw [hSign]
    rfl

theorem isExponentText_text : isExponentText e.text = !e.digits.isEmpty := by
  have hMark : (e.mark = 'e' || e.mark = 'E') = true := by simpa using e.marked
  have hAll : e.digits.all isDigit = true := List.all_eq_true.mpr e.legal
  rw [text, isExponentText, dropSign_eq, hMark, hAll]
  simp

theorem hasExponent_text : hasExponent e.text = true := by
  have hMark : (e.mark = 'e' || e.mark = 'E') = true := by simpa using e.marked
  have hSigned := e.signed
  simp only [List.mem_cons, List.not_mem_nil, or_false] at hSigned
  rw [text, hasExponent.eq_def]
  dsimp only
  rw [hMark]
  rcases hSigned with hSign | hSign | hSign
  · rw [hSign, List.nil_append]
    cases hDigits : e.digits with
    | nil => rfl
    | cons c cs => simp [e.legal c (hDigits ▸ List.mem_cons_self)]
  · simp [hSign]
  · simp [hSign]

/-- Where the mark does not stand alone, the last character is a sign or a digit. -/
theorem text_last (h : e.sign ++ e.digits ≠ []) :
    ∃ front c, e.text = front ++ [c] ∧ c ≠ 'e' ∧ c ≠ 'E' := by
  refine ⟨e.mark :: (e.sign ++ e.digits).dropLast, (e.sign ++ e.digits).getLast h, ?_, ?_⟩
  · rw [text, List.cons_append, List.dropLast_append_getLast]
  · rcases List.mem_append.mp (List.getLast_mem h) with hMem | hMem
    · rcases mem_sign e.signed hMem with hSign | hSign <;> rw [hSign] <;> decide
    · exact ⟨isDigit_ne (e.legal _ hMem) (by decide), isDigit_ne (e.legal _ hMem) (by decide)⟩

end Exponent

theorem hasExponent_append (front : List Char) {cs : List Char} (h : hasExponent cs = true) :
    hasExponent (front ++ cs) = true := by
  induction front with
  | nil => exact h
  | cons c front ih =>
    rw [List.cons_append, hasExponent.eq_def]
    dsimp only
    rw [ih, Bool.or_true]

theorem startsHex0x_mem {cs : List Char} (h : startsHex0x cs = true) : 'x' ∈ cs ∨ 'X' ∈ cs := by
  unfold startsHex0x at h
  split at h
  · simp
  · simp
  · cases h

theorem looksLikeFloat_eq (raw : List Char) :
    looksLikeFloat raw =
      (!(startsHex0x raw || startsBasePrefix raw || startsBasePrefix (dropSign raw) ||
          startsHex0x (dropSign raw)) &&
        (raw.head?.any fun c => isDigit c || c = '-' || c = '+' || c = '.') &&
        raw.any isDigit && (raw.contains '.' || hasExponent raw)) := by
  cases raw with
  | nil => rfl
  | cons c cs =>
    by_cases hMinus : c = '-'
    · rw [hMinus]
      rfl
    by_cases hPlus : c = '+'
    · rw [hPlus]
      rfl
    rw [dropSign_other hPlus hMinus]
    unfold looksLikeFloat
    split
    · rename_i hEq
      exact absurd (List.cons.inj hEq).1 hMinus
    · rename_i hEq
      exact absurd (List.cons.inj hEq).1 hPlus
    · rfl

/-- The characters of a float. -/
def isFloatChar (c : Char) : Bool := isDigit c || ['+', '-', '.', 'e', 'E'].contains c

namespace Decimal
variable (d : Decimal)

theorem text_chars : ∀ c ∈ d.text, isFloatChar c = true := by
  have hDigit : ∀ c, isDigit c = true → isFloatChar c = true := fun c hc => by simp [isFloatChar, hc]
  have hSign : ∀ sign ∈ [[], ['+'], ['-']], ∀ c ∈ sign, isFloatChar c = true := by
    intro sign hSigned c hc
    rcases mem_sign hSigned hc with hPlus | hMinus
    · rw [hPlus]
      decide
    · rw [hMinus]
      decide
  intro c hc
  unfold text at hc
  rcases List.mem_append.mp hc with hc | hc
  · exact hSign _ d.signed c hc
  rcases List.mem_append.mp hc with hc | hc
  · exact hDigit c (d.wholeLegal c hc)
  rcases List.mem_append.mp hc with hc | hc
  · unfold fractionText at hc
    have hLegal := d.fractionLegal
    split at hc
    · rename_i digits hFraction
      rw [hFraction] at hLegal
      rcases List.mem_cons.mp hc with rfl | hc
      · decide
      · exact hDigit c (hLegal c hc)
    · cases hc
  · unfold exponentText at hc
    split at hc
    · rename_i e _
      rcases List.mem_cons.mp hc with rfl | hc
      · rcases e.marked with hMark | hMark <;> rw [hMark] <;> decide
      rcases List.mem_append.mp hc with hc | hc
      · exact hSign _ e.signed c hc
      · exact hDigit c (e.legal c hc)
    · cases hc

/-- Behind the sign stands a digit or the point. -/
theorem body_head : ∃ c cs, d.whole ++ (d.fractionText ++ d.exponentText) = c :: cs ∧
    (isDigit c = true ∨ c = '.') := by
  cases hWhole : d.whole with
  | cons c cs => exact ⟨c, _, rfl, .inl (d.wholeLegal c (hWhole ▸ List.mem_cons_self))⟩
  | nil =>
    have hNe := d.mantissa
    rw [hWhole, List.nil_append] at hNe
    cases hFraction : d.fraction with
    | none =>
      rw [hFraction] at hNe
      exact absurd rfl hNe
    | some digits => exact ⟨'.', _, by rw [fractionText, hFraction]; rfl, .inr rfl⟩

theorem dropSign_text : dropSign d.text = d.whole ++ (d.fractionText ++ d.exponentText) := by
  obtain ⟨c, cs, hBody, hHead⟩ := d.body_head
  have hPlus : c ≠ '+' := by
    rintro rfl
    rcases hHead with hHead | hHead <;> cases hHead
  have hMinus : c ≠ '-' := by
    rintro rfl
    rcases hHead with hHead | hHead <;> cases hHead
  have hSigned := d.signed
  simp only [List.mem_cons, List.not_mem_nil, or_false] at hSigned
  rw [text, hBody]
  rcases hSigned with hSign | hSign | hSign
  · rw [hSign, List.nil_append, dropSign_other hPlus hMinus]
  · rw [hSign]
    rfl
  · rw [hSign]
    rfl

theorem looksLikeFloat_text (hFloat : d.IsFloat) : looksLikeFloat d.text = true := by
  have hNotHex : ∀ cs : List Char, (∀ c ∈ cs, isFloatChar c = true) → startsHex0x cs = false := by
    intro cs hChars
    apply Bool.eq_false_iff.mpr
    intro hStart
    rcases startsHex0x_mem hStart with hMem | hMem
    · exact absurd (hChars _ hMem) (by decide)
    · exact absurd (hChars _ hMem) (by decide)
  have hNotBase : ∀ cs : List Char, (∀ c ∈ cs, isFloatChar c = true) →
      startsBasePrefix cs = false := by
    intro cs hChars
    cases cs with
    | nil => rfl
    | cons c cs =>
      have hc := hChars c List.mem_cons_self
      apply Bool.eq_false_iff.mpr
      intro hStart
      simp only [startsBasePrefix, Bool.or_eq_true, decide_eq_true_eq] at hStart
      rcases hStart with (rfl | rfl) | rfl <;> cases hc
  have hTail : ∀ c ∈ dropSign d.text, isFloatChar c = true := by
    intro c hc
    apply d.text_chars
    rw [dropSign_text] at hc
    exact List.mem_append_right _ hc
  have hFirst : (d.text.head?.any fun c => isDigit c || c = '-' || c = '+' || c = '.') = true := by
    obtain ⟨c, cs, hBody, hHead⟩ := d.body_head
    have hSigned := d.signed
    simp only [List.mem_cons, List.not_mem_nil, or_false] at hSigned
    rw [text, hBody]
    rcases hSigned with hSign | hSign | hSign
    · rw [hSign]
      simpa [or_assoc] using hHead.imp_right fun h => Or.inr (Or.inr h)
    · rw [hSign]
      rfl
    · rw [hSign]
      rfl
  have hDigit : d.text.any isDigit = true := by
    obtain ⟨c, hc⟩ := List.exists_mem_of_ne_nil _ d.mantissa
    apply List.any_eq_true.mpr
    refine ⟨c, ?_⟩
    rcases List.mem_append.mp hc with hc | hc
    · exact ⟨by simp [text, hc], d.wholeLegal c hc⟩
    · refine ⟨?_, d.fractionLegal c hc⟩
      cases hFraction : d.fraction with
      | none =>
        rw [hFraction] at hc
        cases hc
      | some digits =>
        rw [hFraction] at hc
        have hMem : c ∈ digits := hc
        simp [text, fractionText, hFraction, hMem]
  have hShape : (d.text.contains '.' || hasExponent d.text) = true := by
    rcases hFloat with hFraction | hExponent
    · obtain ⟨digits, hFraction⟩ := Option.isSome_iff_exists.mp hFraction
      simp [text, fractionText, hFraction]
    · obtain ⟨e, hExponent⟩ := Option.isSome_iff_exists.mp hExponent
      have hText : hasExponent d.text = true := by
        rw [text, ← List.append_assoc, ← List.append_assoc]
        apply hasExponent_append
        rw [exponentText, hExponent]
        exact e.hasExponent_text
      rw [hText, Bool.or_true]
  rw [looksLikeFloat_eq, hNotHex _ d.text_chars, hNotBase _ d.text_chars, hNotHex _ hTail,
    hNotBase _ hTail, hFirst, hDigit, hShape]
  rfl

/-- No float is a name of infinity or of no number. -/
theorem not_named : ["inf", "infinity", "nan"].contains (lower (String.ofList (dropSign d.text))) =
    false := by
  obtain ⟨c, cs, hBody, hHead⟩ := d.body_head
  have hLower : c.toLower = c := by
    rcases hHead with hDigit | rfl
    · exact toLower_digit hDigit
    · decide
  have hList : (lower (String.ofList (dropSign d.text))).toList = c :: cs.map Char.toLower := by
    rw [dropSign_text, hBody]
    simp [lower, hLower]
  have hNe : ∀ name : String, (∃ x xs, name.toList = x :: xs ∧ isDigit x = false ∧ x ≠ '.') →
      lower (String.ofList (dropSign d.text)) ≠ name := by
    rintro name ⟨x, xs, hName, hDigit, hPoint⟩ hEq
    rw [hEq, hName] at hList
    obtain ⟨rfl, -⟩ := List.cons.inj hList
    rcases hHead with hHead | hHead
    · rw [hDigit] at hHead
      cases hHead
    · exact hPoint hHead
  have hInf := hNe "inf" ⟨'i', _, rfl, by decide, by decide⟩
  have hInfinity := hNe "infinity" ⟨'i', _, rfl, by decide, by decide⟩
  have hNan := hNe "nan" ⟨'n', _, rfl, by decide, by decide⟩
  simp [hInf, hInfinity, hNan]

/-- The parser of the standard library wants digits in an exponent. -/
theorem isFloatText_text :
    isFloatText d.text = (d.exponent.all fun e => !e.digits.isEmpty) := by
  have hExponent : isExponentText d.exponentText = d.exponent.all fun e => !e.digits.isEmpty := by
    unfold exponentText
    cases d.exponent with
    | none => rfl
    | some e => exact e.isExponentText_text
  have hStop : ∀ c ∈ d.exponentText.head?, isDigit c = false := by
    unfold exponentText
    cases d.exponent with
    | none => simp
    | some e =>
      intro c hc
      obtain rfl := Option.some.inj hc
      rcases e.marked with hMark | hMark <;> rw [hMark] <;> decide
  have hTake : ∀ {ds rest : List Char}, (∀ c ∈ ds, isDigit c = true) →
      (∀ c ∈ rest.head?, isDigit c = false) →
      (ds ++ rest).takeWhile isDigit = ds ∧ (ds ++ rest).dropWhile isDigit = rest := by
    intro ds rest hDigits hRest
    rw [List.takeWhile_append_of_pos hDigits, List.dropWhile_append_of_pos hDigits]
    cases rest with
    | nil => simp
    | cons c rest => simp [hRest c rfl]
  unfold isFloatText
  dsimp only
  rw [not_named, Bool.false_or, dropSign_text, ← hExponent]
  cases hFraction : d.fraction with
  | none =>
    have hNe : d.whole ≠ [] := by simpa [hFraction] using d.mantissa
    obtain ⟨hWhole, hRest⟩ := hTake d.wholeLegal hStop
    rw [fractionText, hFraction, List.nil_append, hWhole, hRest]
    have hPoint : ∀ frac, d.exponentText ≠ '.' :: frac := by
      intro frac hEq
      unfold exponentText at hEq
      cases hExponent : d.exponent with
      | none => simp [hExponent] at hEq
      | some e =>
        rw [hExponent] at hEq
        have hMark : e.mark = '.' := (List.cons.inj hEq).1
        rcases e.marked with hMark' | hMark' <;> rw [hMark'] at hMark <;> cases hMark
    split
    · rename_i frac hEq
      exact absurd hEq (hPoint frac)
    · simp [hNe]
  | some digits =>
    have hLegal : ∀ c ∈ digits, isDigit c = true := by simpa [hFraction] using d.fractionLegal
    have hNe : d.whole ≠ [] ∨ digits ≠ [] := by
      by_contra hBoth
      rw [not_or, not_not, not_not] at hBoth
      exact d.mantissa (by simp [hFraction, hBoth])
    obtain ⟨hWhole, hRest⟩ := @hTake _ ('.' :: digits ++ d.exponentText) d.wholeLegal
      (by rintro c hc; obtain rfl := Option.some.inj hc; decide)
    obtain ⟨hDigits, hBehind⟩ := hTake hLegal hStop
    rw [fractionText, hFraction, hWhole, hRest]
    show ((!d.whole.isEmpty || !((digits ++ d.exponentText).takeWhile isDigit).isEmpty) &&
      isExponentText ((digits ++ d.exponentText).dropWhile isDigit)) = _
    rw [hDigits, hBehind]
    rcases hNe with hNe | hNe <;> simp [hNe]

/-- The text without the exponent ends in a digit or the point. -/
theorem mantissa_last : ∃ front c, d.sign ++ (d.whole ++ d.fractionText) = front ++ [c] ∧
    (isDigit c = true ∨ c = '.') := by
  cases hFraction : d.fraction with
  | some digits =>
    refine ⟨(d.sign ++ d.whole ++ ('.' :: digits)).dropLast, (('.' :: digits).getLast (by simp)), ?_, ?_⟩
    · rw [← List.append_assoc, fractionText, hFraction, List.dropLast_append_of_ne_nil (by simp),
        List.append_assoc _ _ [_], List.dropLast_append_getLast]
    · rcases List.mem_cons.mp (List.getLast_mem (List.cons_ne_nil '.' digits)) with hPoint | hMem
      · exact .inr hPoint
      · exact .inl (d.fractionLegal _ (by rw [hFraction]; exact hMem))
  | none =>
    have hNe : d.whole ≠ [] := by simpa [hFraction] using d.mantissa
    refine ⟨d.sign ++ d.whole.dropLast, d.whole.getLast hNe, ?_, .inl (d.wholeLegal _ (List.getLast_mem hNe))⟩
    rw [fractionText, hFraction, List.append_nil, List.append_assoc, List.dropLast_append_getLast]

end Decimal

theorem stripBareExponent_other {front : List Char} {c : Char} (hLower : c ≠ 'e') (hUpper : c ≠ 'E') :
    stripBareExponent (front ++ [c]) = front ++ [c] := by
  unfold stripBareExponent
  rw [List.reverse_append]
  cases front.reverse with
  | nil => rfl
  | cons x xs => simp [hLower, hUpper]

theorem stripBareExponent_mark {front : List Char} {c e : Char} (hc : isDigit c = true ∨ c = '.')
    (he : e = 'e' ∨ e = 'E') : stripBareExponent (front ++ [c] ++ [e]) = front ++ [c] := by
  unfold stripBareExponent
  rw [List.reverse_append, List.reverse_append]
  simp [hc, he]

namespace Decimal
variable (d : Decimal)

/-- An exponent mark alone goes, and the number stays what it was. -/
theorem strip_text : ∃ read : Decimal, read.text = stripBareExponent d.text ∧ read.value = d.value ∧
    (read.exponent.all fun e => !e.digits.isEmpty) =
      d.exponent.all fun e => e.sign = [] || !e.digits.isEmpty := by
  obtain ⟨front, c, hFront, hc⟩ := d.mantissa_last
  have hText : d.text = front ++ [c] ++ d.exponentText := by
    rw [← hFront, text]
    simp
  have hcLower : c ≠ 'e' := by
    rintro rfl
    rcases hc with hc | hc <;> cases hc
  have hcUpper : c ≠ 'E' := by
    rintro rfl
    rcases hc with hc | hc <;> cases hc
  cases hExponent : d.exponent with
  | none =>
    refine ⟨d, ?_, rfl, by rw [hExponent]; rfl⟩
    rw [hText, exponentText, hExponent, List.append_nil, stripBareExponent_other hcLower hcUpper]
  | some e =>
    have hWhole : d.text = front ++ [c] ++ e.text := by rw [hText, exponentText, hExponent]
    by_cases hBare : e.sign ++ e.digits = []
    · obtain ⟨hSign, hDigits⟩ := List.append_eq_nil_iff.mp hBare
      refine ⟨{ d with exponent := none }, ?_, ?_, by simp [hSign]⟩
      · have hMark : e.text = [e.mark] := by rw [Exponent.text, hBare]
        have hNone : ({ d with exponent := none } : Decimal).text =
            d.sign ++ (d.whole ++ (d.fractionText ++ [])) := rfl
        rw [hWhole, hMark, stripBareExponent_mark hc e.marked, hNone, List.append_nil, hFront]
      · have hZero : e.value = 0 := by
          rw [Exponent.value, hSign, hDigits]
          rfl
        simp [value, hExponent, hZero]
    · obtain ⟨start, z, hEnd, hLower, hUpper⟩ := e.text_last hBare
      refine ⟨d, ?_, rfl, ?_⟩
      · rw [hWhole, hEnd, ← List.append_assoc, stripBareExponent_other hLower hUpper]
      · rw [hExponent, Option.all_some, Option.all_some]
        by_cases hSign : e.sign = []
        · have hDigits : e.digits ≠ [] := fun h => hBare (by rw [hSign, h]; rfl)
          simp [hSign, hDigits]
        · simp [hSign]

/-- The tokeniser reads a float unless its exponent has a sign and no digits. -/
theorem classify_float (hFloat : d.IsFloat) (span : Span) :
    classify span d.text =
      if (d.exponent.all fun e => e.sign = [] || !e.digits.isEmpty) = true then
        .ok (.float ⟨String.ofList d.text⟩ (String.ofList d.text))
      else
        .error (.malformedNumber (String.ofList d.text) span "looks like a float but didn't parse") := by
  obtain ⟨read, hRead, _, hDigits⟩ := d.strip_text
  have hLooks := d.looksLikeFloat_text hFloat
  have hParse : parseFloat d.text =
      if (d.exponent.all fun e => e.sign = [] || !e.digits.isEmpty) = true then
        some ⟨String.ofList d.text⟩
      else none := by
    rw [parseFloat, ← hRead, isFloatText_text, hDigits]
  cases hText : d.text with
  | nil =>
    rw [hText] at hLooks
    cases hLooks
  | cons c cs =>
    rw [hText] at hLooks hParse
    rw [classify, hLooks, if_pos rfl, hParse]
    by_cases hReads : (d.exponent.all fun e => e.sign = [] || !e.digits.isEmpty) = true
    · rw [if_pos hReads, if_pos hReads]
    · rw [if_neg hReads, if_neg hReads]

end Decimal

/-! Integers. -/

theorem NumBase.digit_isDigitOf {base : NumBase} {c : Char} (h : NumBase.digit base c = true) :
    base.isDigitOf c = true ∧ c ≠ '_' := by
  simpa [NumBase.digit] using h

namespace Numeral
variable (n : Numeral)

theorem magnitude_eq : n.magnitude = n.digits.foldl (appendDigit n.base.radix) 0 := by
  have hSkip : ∀ (digits : List Char) (acc : Int),
      (digits.filter (· ≠ '_')).foldl (appendDigit n.base.radix) acc =
        digits.foldl (appendDigit n.base.radix) acc := by
    intro digits
    induction digits with
    | nil => exact fun _ => rfl
    | cons c digits ih =>
      intro acc
      by_cases hc : c = '_'
      · have hNone : digitValue '_' = none := by decide
        have hStay : appendDigit n.base.radix acc '_' = acc := by rw [appendDigit, hNone]
        rw [hc, List.filter_cons_of_neg (by simp), List.foldl_cons, hStay, ih]
      · rw [List.filter_cons_of_pos (by simpa using hc), List.foldl_cons, List.foldl_cons, ih]
  exact hSkip n.digits 0

theorem digits_ne_nil : n.digits ≠ [] := by
  obtain ⟨c, hFirst, _⟩ := n.first
  rintro hNil
  rw [hNil] at hFirst
  cases hFirst

/-- The texts that the tokeniser takes for integers are those whose separators stand behind `0x`. -/
theorem classify_text (hSeparators : '_' ∈ n.digits → n.base = .hex0x) (span : Span) :
    classify span n.text = .ok (.int n.value n.base (String.ofList n.text)) := by
  have hLegal : ∀ c ∈ n.digits, n.base.isDigitOf c = true := by
    intro c hc
    rcases n.legal c hc with hDigit | rfl
    · exact (NumBase.digit_isDigitOf hDigit).1
    · rw [hSeparators hc]
      decide
  have hClass := classify_integer ⟨n.negative, n.base, n.marker, n.digits, n.marked, n.digits_ne_nil,
    hLegal⟩ span
  have hValue : n.value = wrap64 (if n.negative then -n.digits.foldl (appendDigit n.base.radix) 0
      else n.digits.foldl (appendDigit n.base.radix) 0) := by
    rw [value, magnitude_eq]
  rw [hValue]
  exact hClass

/-- Without a point or an exponent mark no text is tried as a float. -/
theorem looksLikeFloat_plain {cs : List Char} (h : ∀ c ∈ cs, c ≠ '.' ∧ c ≠ 'e' ∧ c ≠ 'E') :
    looksLikeFloat cs = false := by
  have hExponent : hasExponent cs = false := by
    induction cs with
    | nil => rfl
    | cons c cs ih =>
      obtain ⟨-, hLower, hUpper⟩ := h c List.mem_cons_self
      rw [hasExponent_other hLower hUpper]
      exact ih fun d hd => h d (List.mem_cons_of_mem _ hd)
  have hPoint : cs.contains '.' = false := by
    simpa using fun hMem => (h '.' hMem).1 rfl
  rw [looksLikeFloat_eq, hPoint, hExponent]
  simp

theorem text_mem {c : Char} : c ∈ n.text ↔ (n.negative = true ∧ c = '-') ∨ c ∈ n.marker ∨ c ∈ n.digits := by
  unfold text
  cases n.negative <;> simp

theorem digit_not {base : NumBase} (h : base ≠ .hex0x) {c : Char} (hc : c = '_' ∨ c = 'x' ∨ c = 'X') :
    base.isDigitOf c = false ∧ ∀ m ∈ base.markers, c ∉ m := by
  rcases hc with rfl | rfl | rfl <;> cases base <;> first | exact absurd rfl h | decide

theorem looksLikeFloat_text : looksLikeFloat n.text = false := by
  by_cases hBase : n.base = .decimal
  · apply looksLikeFloat_plain
    intro c hc
    rcases n.text_mem.mp hc with ⟨-, rfl⟩ | hMem | hMem
    · decide
    · have hMarked := n.marked
      rw [hBase] at hMarked
      obtain hNil := List.mem_singleton.mp hMarked
      rw [hNil] at hMem
      cases hMem
    · rcases n.legal c hMem with hLegal | rfl
      · rw [hBase] at hLegal
        have hDigit : isDigit c = true := (NumBase.digit_isDigitOf hLegal).1
        exact ⟨isDigit_ne hDigit (by decide), isDigit_ne hDigit (by decide),
          isDigit_ne hDigit (by decide)⟩
      · decide
  · have hStart : startsBasePrefix (n.marker ++ n.digits) = true ∨
        startsHex0x (n.marker ++ n.digits) = true := by
      have hMarked := n.marked
      cases hB : n.base with
      | decimal => exact absurd hB hBase
      | hex | binary | decimalExplicit =>
        rw [hB] at hMarked
        rw [List.mem_singleton.mp hMarked]
        exact .inl rfl
      | hex0x =>
        rw [hB] at hMarked
        simp only [NumBase.markers, List.mem_cons, List.not_mem_nil, or_false] at hMarked
        rcases hMarked with hMarker | hMarker
        · rw [hMarker]
          exact .inr rfl
        · rw [hMarker]
          exact .inr rfl
    unfold text
    cases n.negative with
    | true => exact (looksLikeFloat_marked hStart).2
    | false => exact (looksLikeFloat_marked hStart).1

/-- A separator anywhere else makes a word of the number. -/
theorem classify_separated (hSeparator : '_' ∈ n.digits) (hBase : n.base ≠ .hex0x) (span : Span) :
    classify span n.text = .ok (.word (String.ofList n.text)) := by
  have hNoX : ∀ c, c = 'x' ∨ c = 'X' → c ∉ n.text := by
    intro c hc hMem
    have hNot := digit_not hBase (.inr hc)
    rcases n.text_mem.mp hMem with ⟨-, rfl⟩ | hMem | hMem
    · exact absurd hc (by decide)
    · exact hNot.2 _ n.marked hMem
    · rcases n.legal c hMem with hLegal | rfl
      · have hDigit := (NumBase.digit_isDigitOf hLegal).1
        rw [hNot.1] at hDigit
        cases hDigit
      · exact absurd hc (by decide)
  apply classify_word
  rintro (hFloat | hHex | ⟨m, hText⟩)
  · rw [n.looksLikeFloat_text] at hFloat
    cases hFloat
  · rcases startsHex0x_mem hHex with hMem | hMem
    · exact hNoX _ (.inl rfl) hMem
    · exact hNoX _ (.inr rfl) hMem
  · have hMem : '_' ∈ m.text := hText ▸ n.text_mem.mpr (.inr (.inr hSeparator))
    have hUnsigned : '_' ∈ m.unsigned := by
      unfold IntegerText.text at hMem
      rcases List.mem_append.mp hMem with hSign | hUnsigned
      · split at hSign
        · exact absurd hSign (by decide)
        · cases hSign
      · exact hUnsigned
    have hZero : m.base = .hex0x := by
      by_contra hOther
      have hNot := digit_not hOther (.inl rfl)
      rcases List.mem_append.mp hUnsigned with hMarker | hDigits
      · exact hNot.2 _ m.marked hMarker
      · have hLegal := m.legal _ hDigits
        rw [hNot.1] at hLegal
        cases hLegal
    have hMarked := m.marked
    have hAll : ∀ c ∈ m.marker, c ∈ n.text := by
      intro c hc
      rw [← hText]
      exact List.mem_append_right _ (List.mem_append_left _ hc)
    rw [hZero] at hMarked
    simp only [NumBase.markers, List.mem_cons, List.not_mem_nil, or_false] at hMarked
    rcases hMarked with hMarker | hMarker
    · exact hNoX 'x' (.inl rfl) (hAll _ (by rw [hMarker]; simp))
    · exact hNoX 'X' (.inr rfl) (hAll _ (by rw [hMarker]; simp))

end Numeral

/-! What is no number. -/

/-- An integer text without separators behind another marker than `0x` is a number. -/
theorem numeral_of_integer (n : IntegerText) (hBase : n.base ≠ .hex0x) :
    ∃ m : Numeral, m.text = n.text := by
  have hLegal : ∀ c ∈ n.digits, NumBase.digit n.base c = true := by
    intro c hc
    have hDigit := n.legal c hc
    have hNot : c ≠ '_' := by
      rintro rfl
      rw [(Numeral.digit_not hBase (.inl rfl)).1] at hDigit
      cases hDigit
    simp [NumBase.digit, hDigit, hNot]
  refine ⟨⟨n.negative, n.base, n.marker, n.digits, n.marked, fun c hc => .inl (hLegal c hc), ?_, ?_⟩, rfl⟩
  · exact ⟨n.digits.head n.nonempty, List.head?_eq_some_head n.nonempty,
      hLegal _ (List.head_mem n.nonempty)⟩
  · exact ⟨n.digits.getLast n.nonempty, List.getLast?_eq_some_getLast n.nonempty,
      hLegal _ (List.getLast_mem n.nonempty)⟩

theorem classify_other {w : List Char} (hNumeral : ¬ ∃ n : Numeral, n.text = w)
    (hFloat : looksLikeFloat w = false) (hHex : startsHex0x w = false) (hMinus : ¬ StartsMinusHex w)
    (span : Span) : classify span w = .ok (.word (String.ofList w)) := by
  apply classify_word
  rintro (h | h | ⟨n, rfl⟩)
  · rw [hFloat] at h
    cases h
  · rw [hHex] at h
    cases h
  by_cases hBase : n.base = .hex0x
  · have hStart : startsHex0x n.unsigned = true ∧ n.unsigned.drop 2 = n.digits := by
      have hMarked := n.marked
      rw [hBase] at hMarked
      simp only [NumBase.markers, List.mem_cons, List.not_mem_nil, or_false] at hMarked
      unfold IntegerText.unsigned
      rcases hMarked with hMarker | hMarker
      · rw [hMarker]
        exact ⟨rfl, rfl⟩
      · rw [hMarker]
        exact ⟨rfl, rfl⟩
    unfold IntegerText.text at hHex hMinus
    cases hNegative : n.negative with
    | false =>
      rw [hNegative, if_neg Bool.false_ne_true, List.nil_append, hStart.1] at hHex
      cases hHex
    | true =>
      rw [hNegative, if_pos rfl] at hMinus
      refine hMinus ⟨n.unsigned, rfl, hStart.1, ?_⟩
      rw [hStart.2]
      exact ⟨n.nonempty, hBase ▸ n.legal⟩
  · exact hNumeral (numeral_of_integer n hBase)

theorem parseIntWithBase_int {digits : List Char} {base : Nat} {tag : NumBase} {raw : String}
    {span : Span} {word : String} : parseIntWithBase digits base tag raw span ≠ .ok (.word word) := by
  unfold parseIntWithBase
  split
  · exact fun h => by cases h
  · cases digitsValue base raw span 0 digits with
    | error e => exact fun h => by cases h
    | ok v => exact fun h => by cases h

/-- What is tried as a number is not read as a word. -/
theorem not_word {w : List Char} {span : Span}
    (h : looksLikeFloat w = true ∨ startsHex0x w = true ∨ StartsMinusHex w) :
    classify span w ≠ .ok (.word (String.ofList w)) := by
  rcases h with hFloat | hHex | ⟨rest, rfl, hStart, hNe, hLegal⟩
  · cases w with
    | nil => cases hFloat
    | cons c cs =>
      rw [classify, hFloat, if_pos rfl]
      cases parseFloat (c :: cs) with
      | none => exact fun h => by cases h
      | some value => exact fun h => by cases h
  · unfold startsHex0x at hHex
    split at hHex
    · rw [classify_0x span (by decide)]
      exact parseIntWithBase_int
    · rw [classify_0x span (by decide)]
      exact parseIntWithBase_int
    · cases hHex
  · have hMarker : rest.take 2 ∈ NumBase.hex0x.markers := by
      unfold startsHex0x at hStart
      split at hStart
      · exact List.mem_cons_self
      · exact List.mem_cons_of_mem _ List.mem_cons_self
      · cases hStart
    have hClass := classify_integer ⟨true, .hex0x, rest.take 2, rest.drop 2, hMarker, hNe, hLegal⟩ span
    have hText : '-' :: (rest.take 2 ++ rest.drop 2) = '-' :: rest := by rw [List.take_append_drop]
    intro hWord
    rw [← hText] at hWord
    cases hClass.symm.trans hWord

/-- The tokeniser reads every number as its value and everything else as a word, exactly where no
separator stands but behind `0x`, where no exponent has a sign without digits, and where what is no
number does not look like one. -/
theorem readExactly_iff {w tail : List Char} (h : BlankDelimited w tail) (p : Pos) :
    ReadExactly w tail p ↔ Recognisable w := by
  constructor
  · intro hRead
    refine ⟨fun n hText hSeparator => ?_, fun d hText e hExponent hSign hDigits => ?_,
      fun hNumeral hDecimal => ?_⟩
    · by_contra hBase
      have hInt := h.yields_iff.mp (hRead.integer n hText)
      rw [← hText, n.classify_separated hSeparator hBase] at hInt
      cases hInt
    · have hFloat : d.IsFloat := .inr (by rw [hExponent]; rfl)
      have hYields := h.yields_iff.mp (hRead.float d hFloat hText).1
      have hNot : (d.exponent.all fun e => e.sign = [] || !e.digits.isEmpty) = false := by
        simp [hExponent, hSign, hDigits]
      rw [← hText, d.classify_float hFloat, hNot] at hYields
      cases hYields
    · have hWord := h.yields_iff.mp (hRead.word hNumeral hDecimal)
      by_contra hNot
      refine not_word ?_ hWord
      by_cases hFloat : looksLikeFloat w = true
      · exact .inl hFloat
      by_cases hHex : startsHex0x w = true
      · exact .inr (.inl hHex)
      by_contra hMinus
      rw [not_or, not_or] at hMinus
      exact hNot ⟨by simpa using hFloat, by simpa using hHex, hMinus.2.2⟩
  · intro hWhen
    refine ⟨fun n hText => ?_, fun d hFloat hText => ⟨?_, ?_⟩, fun hNumeral hDecimal => ?_⟩
    · rw [h.yields_iff, ← hText]
      exact n.classify_text (hWhen.separators n hText) _
    · have hAll : (d.exponent.all fun e => e.sign = [] || !e.digits.isEmpty) = true := by
        rw [Option.all_eq_true]
        intro e hExponent
        have hDigits := hWhen.exponent d hText e hExponent
        by_cases hSign : e.sign = []
        · simp [hSign]
        · simp [hDigits hSign]
      rw [h.yields_iff, ← hText, d.classify_float hFloat, if_pos hAll]
    · obtain ⟨read, hStrip, hValue, _⟩ := d.strip_text
      exact ⟨read, hText ▸ hStrip, hValue⟩
    · obtain ⟨hFloat, hHex, hMinus⟩ := hWhen.other hNumeral hDecimal
      exact h.yields_iff.mpr (classify_other hNumeral hFloat hHex hMinus _)

theorem solid_of_all {w : List Char} (h : (w.all fun c => !isBlank c) = true) :
    ∀ c ∈ w, isBlank c = false := by
  intro c hc
  simpa using List.all_eq_true.mp h c hc

theorem readExactly_grouped :
    ReadExactly "0xFF_FF".toList " dup".toList Pos.start ↔ Recognisable "0xFF_FF".toList := by
  have hToken : BlankDelimited "0xFF_FF".toList " dup".toList :=
    ⟨by decide, solid_of_all (by decide), rfl, by decide, rfl,
      fun p => charLiteral_head (by decide) _ p, by decide⟩
  exact readExactly_iff hToken Pos.start

/-- A name with a point and a digit is refused as a malformed float. -/
theorem pointed_name_refused : ¬ ∀ (w tail : List Char) (p : Pos), BlankDelimited w tail →
    ReadExactly w tail p := by
  intro h
  have hToken : BlankDelimited ".s2".toList [] :=
    ⟨by decide, solid_of_all (by decide), rfl, by decide, rfl,
      fun p => charLiteral_head (by decide) _ p, by decide⟩
  have hLooks : looksLikeFloat ".s2".toList = true := by decide
  have hNumeral : ¬ ∃ n : Numeral, n.text = ".s2".toList := by
    rintro ⟨n, hText⟩
    rw [← hText, n.looksLikeFloat_text] at hLooks
    cases hLooks
  have hDecimal : ¬ ∃ d : Decimal, d.IsFloat ∧ d.text = ".s2".toList := by
    rintro ⟨d, -, hText⟩
    have hChar := d.text_chars 's' (by rw [hText]; decide)
    revert hChar
    decide
  have hWord := (h _ [] Pos.start hToken).word hNumeral hDecimal
  exact not_word (.inl hLooks) (hToken.yields_iff.mp hWord)

end FactorForth.Correctness
