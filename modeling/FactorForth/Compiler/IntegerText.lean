import FactorForth.Compiler.Lex
import Mathlib.Data.Int.Notation

/-! Integer literals: the texts that the tokeniser reads as integers, and what they stand for. -/

namespace FactorForth.Compiler.Lex

def NumBase.radix : NumBase → Nat
  | .decimal | .decimalExplicit => 10
  | .hex | .hex0x => 16
  | .binary => 2

def NumBase.markers : NumBase → List (List Char)
  | .decimal => [[]]
  | .hex => [['$']]
  | .binary => [['%']]
  | .decimalExplicit => [['#']]
  | .hex0x => [['0', 'x'], ['0', 'X']]

/-- Only the `0x` form takes underscores between its digits. -/
def NumBase.isDigitOf : NumBase → Char → Bool
  | .decimal, c | .decimalExplicit, c => isDigit c
  | .hex, c => isHexDigit c
  | .binary, c => c = '0' || c = '1'
  | .hex0x, c => isHexDigit c || c = '_'

structure IntegerText where
  negative : Bool
  base : NumBase
  marker : List Char
  digits : List Char
  marked : marker ∈ base.markers
  nonempty : digits ≠ []
  legal : ∀ c ∈ digits, base.isDigitOf c = true

/-- One more digit behind a number. -/
def appendDigit (radix : Nat) (acc : Int) (c : Char) : Int :=
  match digitValue c with
  | some d => acc * radix + d
  | none => acc

def IntegerText.magnitude (n : IntegerText) : Int :=
  n.digits.foldl (appendDigit n.base.radix) 0

/-- The cell that a literal stands for. -/
def IntegerText.value (n : IntegerText) : Int :=
  wrap64 (if n.negative then -n.magnitude else n.magnitude)

def IntegerText.unsigned (n : IntegerText) : List Char := n.marker ++ n.digits

def IntegerText.text (n : IntegerText) : List Char :=
  (if n.negative then ['-'] else []) ++ n.unsigned

/-- A text that the tokeniser tries as a number: a float, a `0x` text or an integer. -/
def IsNumeric (w : List Char) : Prop :=
  looksLikeFloat w = true ∨ startsHex0x w = true ∨ ∃ n : IntegerText, n.text = w

/-! Digits. -/

theorem wrap64_step (a d : Int) (radix : Nat) :
    wrap64 (wrap64 a * radix + d) = wrap64 (a * radix + d) := by
  unfold wrap64
  rw [← Int.bmod_add_bmod, Int.bmod_mul_bmod, Int.bmod_add_bmod]

theorem wrap64_neg (a : Int) : wrap64 (-wrap64 a) = wrap64 (-a) := by
  unfold wrap64
  simp

theorem digitValue_isDigit {c : Char} (h : isDigit c = true) :
    ∃ d, digitValue c = some d ∧ d < 10 := by
  refine ⟨c.toNat - '0'.toNat, by rw [digitValue, if_pos h], ?_⟩
  simp only [isDigit, Bool.and_eq_true, decide_eq_true_eq, Char.le_def] at h
  have hHigh : c.toNat ≤ '9'.toNat := h.2
  have hNine : '9'.toNat = 57 := rfl
  have hZero : '0'.toNat = 48 := rfl
  omega

theorem digitValue_isHexDigit {c : Char} (h : isHexDigit c = true) :
    ∃ d, digitValue c = some d ∧ d < 16 := by
  by_cases hDigit : isDigit c = true
  · obtain ⟨d, hd, hLt⟩ := digitValue_isDigit hDigit
    exact ⟨d, hd, by omega⟩
  · have hA : 'a'.toNat = 97 := rfl
    have hF : 'f'.toNat = 102 := rfl
    have hA' : 'A'.toNat = 65 := rfl
    have hF' : 'F'.toNat = 70 := rfl
    simp only [isHexDigit, hDigit, Bool.or_eq_true, Bool.and_eq_true, decide_eq_true_eq,
      Bool.false_eq_true, false_or] at h
    unfold digitValue
    rw [if_neg hDigit]
    by_cases hLower : 'a' ≤ c ∧ c ≤ 'f'
    · refine ⟨_, if_pos (by simpa using hLower), ?_⟩
      have hHigh : c.toNat ≤ 'f'.toNat := hLower.2
      omega
    · have hUpper : 'A' ≤ c ∧ c ≤ 'F' := h.resolve_left hLower
      refine ⟨10 + (c.toNat - 'A'.toNat), ?_, ?_⟩
      · rw [if_neg (by simpa using hLower), if_pos (by simpa using hUpper)]
      · have hHigh : c.toNat ≤ 'F'.toNat := hUpper.2
        omega

/-- A legal character of a literal is a digit below the radix or an underscore. -/
theorem isDigitOf_value {b : NumBase} {c : Char} (h : b.isDigitOf c = true) :
    (∃ d, digitValue c = some d ∧ d < b.radix) ∨ (digitValue c = none ∧ c = '_') := by
  cases b with
  | decimal => exact .inl (digitValue_isDigit h)
  | decimalExplicit => exact .inl (digitValue_isDigit h)
  | hex => exact .inl (digitValue_isHexDigit h)
  | binary =>
    simp only [NumBase.isDigitOf, Bool.or_eq_true, decide_eq_true_eq] at h
    rcases h with rfl | rfl
    · exact .inl ⟨0, by decide, by decide⟩
    · exact .inl ⟨1, by decide, by decide⟩
  | hex0x =>
    simp only [NumBase.isDigitOf, Bool.or_eq_true, decide_eq_true_eq] at h
    rcases h with h | rfl
    · exact .inl (digitValue_isHexDigit h)
    · exact .inr ⟨by decide, rfl⟩

theorem digitsValue_legal {b : NumBase} (raw : String) (span : Span) (digits : List Char)
    (h : ∀ c ∈ digits, b.isDigitOf c = true) (a : Int) :
    digitsValue b.radix raw span (wrap64 a) digits =
      .ok (wrap64 (digits.foldl (appendDigit b.radix) a)) := by
  induction digits generalizing a with
  | nil => rfl
  | cons c cs ih =>
    have hRest : ∀ d ∈ cs, b.isDigitOf d = true := fun d hd => h d (List.mem_cons_of_mem _ hd)
    rw [digitsValue, List.foldl_cons]
    rcases isDigitOf_value (h c List.mem_cons_self) with ⟨d, hd, hLt⟩ | ⟨hNone, rfl⟩
    · rw [hd]
      dsimp only
      rw [if_neg (by omega), wrap64_step, ih hRest]
      simp [appendDigit, hd]
    · rw [hNone]
      dsimp only
      rw [if_pos rfl, ih hRest]
      simp [appendDigit, hNone]

theorem parseIntWithBase_legal {b : NumBase} (raw : String) (span : Span) {digits : List Char}
    (hNe : digits ≠ []) (h : ∀ c ∈ digits, b.isDigitOf c = true) :
    parseIntWithBase digits b.radix b raw span =
      .ok (.int (wrap64 (digits.foldl (appendDigit b.radix) 0)) b raw) := by
  have hValue := digitsValue_legal (b := b) raw span digits h 0
  have hZero : wrap64 0 = 0 := by decide
  rw [hZero] at hValue
  rw [parseIntWithBase, if_neg (by simpa using hNe), hValue]
  rfl

/-! Floats. -/

theorem isDigit_ne {c d : Char} (h : isDigit c = true) (hd : isDigit d = false) : c ≠ d := by
  intro hEq
  rw [hEq, hd] at h
  cases h

theorem hasExponent_other {c : Char} (hLower : c ≠ 'e') (hUpper : c ≠ 'E') (cs : List Char) :
    hasExponent (c :: cs) = hasExponent cs := by
  rw [hasExponent.eq_def]
  simp [hLower, hUpper]

theorem hasExponent_digits {cs : List Char} (h : ∀ c ∈ cs, isDigit c = true) :
    hasExponent cs = false := by
  induction cs with
  | nil => rfl
  | cons c cs ih =>
    have hHead := h c List.mem_cons_self
    have hLower : c ≠ 'e' := isDigit_ne hHead (by decide)
    have hUpper : c ≠ 'E' := isDigit_ne hHead (by decide)
    rw [hasExponent_other hLower hUpper]
    exact ih fun d hd => h d (List.mem_cons_of_mem _ hd)

theorem looksLikeFloat_digits {cs : List Char} (h : ∀ c ∈ cs, isDigit c = true) :
    looksLikeFloat cs = false := by
  have hDot : cs.contains '.' = false := by
    simp only [List.contains_eq_mem, decide_eq_false_iff_not]
    intro hMem
    have hDigit := h '.' hMem
    cases hDigit
  unfold looksLikeFloat
  rw [hDot, hasExponent_digits h]
  simp

theorem looksLikeFloat_minus_digits {cs : List Char} (h : ∀ c ∈ cs, isDigit c = true) :
    looksLikeFloat ('-' :: cs) = false := by
  have hDot : ('-' :: cs).contains '.' = false := by
    simp only [List.contains_eq_mem, List.mem_cons, decide_eq_false_iff_not, not_or]
    refine ⟨by decide, fun hMem => ?_⟩
    have hDigit := h '.' hMem
    cases hDigit
  have hExponent : hasExponent ('-' :: cs) = false := by
    rw [hasExponent_other (by decide) (by decide)]
    exact hasExponent_digits h
  unfold looksLikeFloat
  rw [hDot, hExponent]
  simp

/-- A marked text is never tried as a float, with or without a sign. -/
theorem looksLikeFloat_marked {cs : List Char} (h : startsBasePrefix cs = true ∨ startsHex0x cs = true) :
    looksLikeFloat cs = false ∧ looksLikeFloat ('-' :: cs) = false := by
  have hBody : (startsBasePrefix cs || startsHex0x cs) = true := by simpa using h
  constructor
  · unfold looksLikeFloat
    rcases h with h | h <;> simp [h]
  · unfold looksLikeFloat
    rcases h with h | h <;> simp [h]

/-- A float text is one behind a minus sign too. -/
theorem looksLikeFloat_minus {cs : List Char} (h : looksLikeFloat cs = true) :
    looksLikeFloat ('-' :: cs) = true := by
  have hExponent : hasExponent ('-' :: cs) = hasExponent cs :=
    hasExponent_other (by decide) (by decide) cs
  have hDot : ('-' :: cs).contains '.' = cs.contains '.' := by simp
  have hPlain : startsHex0x ('-' :: cs) = false ∧ startsBasePrefix ('-' :: cs) = false := by
    exact ⟨rfl, by simp [startsBasePrefix]⟩
  unfold looksLikeFloat at h ⊢
  simp only [Bool.and_eq_true, Bool.not_eq_true', Bool.or_eq_false_iff] at h
  obtain ⟨⟨⟨⟨⟨⟨hHex, hPrefix⟩, hBody⟩, hBodyHex⟩, hFirst⟩, hDigit⟩, hPoint⟩ := h
  rw [hExponent, hDot, hPoint, hPlain.1, hPlain.2]
  simp [hHex, hPrefix, hDigit]

/-! What the classifier makes of a text. -/

theorem marker_starts {n : IntegerText} (h : n.base ≠ .decimal) :
    startsBasePrefix n.unsigned = true ∨ startsHex0x n.unsigned = true := by
  obtain ⟨negative, base, marker, digits, marked, nonempty, legal⟩ := n
  cases base with
  | decimal => exact absurd rfl h
  | hex | binary | decimalExplicit =>
    obtain rfl := List.mem_singleton.mp marked
    exact .inl rfl
  | hex0x =>
    simp only [NumBase.markers, List.mem_cons, List.not_mem_nil, or_false] at marked
    rcases marked with rfl | rfl
    · exact .inr rfl
    · exact .inr rfl

theorem decimal_unsigned {n : IntegerText} (h : n.base = .decimal) :
    n.unsigned = n.digits ∧ ∀ c ∈ n.unsigned, isDigit c = true := by
  obtain ⟨negative, base, marker, digits, marked, nonempty, legal⟩ := n
  obtain rfl : base = .decimal := h
  obtain rfl := List.mem_singleton.mp marked
  exact ⟨rfl, legal⟩

theorem integer_not_float (n : IntegerText) :
    looksLikeFloat n.unsigned = false ∧ looksLikeFloat ('-' :: n.unsigned) = false := by
  by_cases h : n.base = .decimal
  · have hDigits := (decimal_unsigned h).2
    exact ⟨looksLikeFloat_digits hDigits, looksLikeFloat_minus_digits hDigits⟩
  · exact looksLikeFloat_marked (marker_starts h)

theorem integer_startsNumber (n : IntegerText) : startsNumber n.unsigned = true := by
  unfold startsNumber
  by_cases h : n.base = .decimal
  · obtain ⟨hEq, hDigits⟩ := decimal_unsigned h
    cases hText : n.unsigned with
    | nil => exact absurd (hEq.symm.trans hText) n.nonempty
    | cons c cs =>
      have hHead := hDigits c (hText ▸ List.mem_cons_self)
      simp [hHead]
  · rcases marker_starts h with hStart | hStart <;> simp [hStart]

/-- The classifier takes a marked text by its marker. -/
theorem classify_marked {c : Char} {b : NumBase} {digits : List Char} (span : Span)
    (hMark : [c] ∈ b.markers) (hNe : digits ≠ []) (h : ∀ d ∈ digits, b.isDigitOf d = true) :
    classify span (c :: digits) =
      parseIntWithBase digits b.radix b (String.ofList (c :: digits)) span := by
  have hEmpty : digits.isEmpty = false := by simpa using hNe
  cases b with
  | decimal => simp [NumBase.markers] at hMark
  | hex0x => simp [NumBase.markers] at hMark
  | hex =>
    obtain rfl : c = '$' := by simpa [NumBase.markers] using hMark
    have hAll : digits.all isHexDigit = true := List.all_eq_true.mpr h
    rw [classify, (looksLikeFloat_marked (.inl rfl)).1]
    simp [hEmpty, hAll, NumBase.radix]
  | binary =>
    obtain rfl : c = '%' := by simpa [NumBase.markers] using hMark
    have hAll : digits.all (fun d => d = '0' || d = '1') = true := List.all_eq_true.mpr h
    rw [classify, (looksLikeFloat_marked (.inl rfl)).1]
    simp only [hEmpty, hAll]
    rfl
  | decimalExplicit =>
    obtain rfl : c = '#' := by simpa [NumBase.markers] using hMark
    have hAll : digits.all isDigit = true := List.all_eq_true.mpr h
    rw [classify, (looksLikeFloat_marked (.inl rfl)).1]
    simp [hEmpty, hAll, NumBase.radix]

theorem classify_0x {x : Char} {digits : List Char} (span : Span)
    (hMark : ['0', x] ∈ NumBase.hex0x.markers) :
    classify span ('0' :: x :: digits) =
      parseIntWithBase digits 16 .hex0x (String.ofList ('0' :: x :: digits)) span := by
  have hStart : startsHex0x ('0' :: x :: digits) = true := by
    simp only [NumBase.markers, List.mem_cons, List.cons.injEq, true_and, and_true,
      List.not_mem_nil, or_false] at hMark
    rcases hMark with rfl | rfl
    · rfl
    · rfl
  rw [classify, (looksLikeFloat_marked (.inr hStart)).1]
  simp [hStart]

theorem classify_digits {c : Char} {cs : List Char} (span : Span)
    (h : ∀ d ∈ c :: cs, isDigit d = true) :
    classify span (c :: cs) =
      parseIntWithBase (c :: cs) 10 .decimal (String.ofList (c :: cs)) span := by
  have hHead := h c List.mem_cons_self
  have hAll : (c :: cs).all isDigit = true := List.all_eq_true.mpr h
  have hDollar : c ≠ '$' := isDigit_ne hHead (by decide)
  have hPercent : c ≠ '%' := isDigit_ne hHead (by decide)
  have hHash : c ≠ '#' := isDigit_ne hHead (by decide)
  have hMinus : c ≠ '-' := isDigit_ne hHead (by decide)
  have hHex : startsHex0x (c :: cs) = false := by
    unfold startsHex0x
    split
    · rename_i hEq
      obtain ⟨-, rfl⟩ := List.cons.inj hEq
      have hX := h 'x' (by simp)
      cases hX
    · rename_i hEq
      obtain ⟨-, rfl⟩ := List.cons.inj hEq
      have hX := h 'X' (by simp)
      cases hX
    · rfl
  rw [classify, looksLikeFloat_digits h, hHex, hAll]
  simp [hDollar, hPercent, hHash, hMinus]

theorem classify_unsigned (n : IntegerText) (span : Span) :
    classify span n.unsigned =
      .ok (.int (wrap64 n.magnitude) n.base (String.ofList n.unsigned)) := by
  have hParse := parseIntWithBase_legal (b := n.base) (String.ofList n.unsigned) span n.nonempty n.legal
  show _ = Except.ok (Tok.int (wrap64 (n.digits.foldl (appendDigit n.base.radix) 0)) _ _)
  rw [← hParse]
  obtain ⟨negative, base, marker, digits, marked, nonempty, legal⟩ := n
  cases base with
  | decimal =>
    obtain rfl := List.mem_singleton.mp marked
    cases digits with
    | nil => exact absurd rfl nonempty
    | cons c cs => exact classify_digits span legal
  | hex =>
    obtain rfl := List.mem_singleton.mp marked
    exact classify_marked span marked nonempty legal
  | binary =>
    obtain rfl := List.mem_singleton.mp marked
    exact classify_marked span marked nonempty legal
  | decimalExplicit =>
    obtain rfl := List.mem_singleton.mp marked
    exact classify_marked span marked nonempty legal
  | hex0x =>
    have hMarker := marked
    simp only [NumBase.markers, List.mem_cons, List.not_mem_nil, or_false] at hMarker
    rcases hMarker with rfl | rfl
    · exact classify_0x span marked
    · exact classify_0x span marked

theorem classify_integer (n : IntegerText) (span : Span) :
    classify span n.text = .ok (.int n.value n.base (String.ofList n.text)) := by
  unfold IntegerText.text IntegerText.value
  cases hNegative : n.negative with
  | false => exact classify_unsigned n span
  | true =>
    have hFloat := (integer_not_float n).2
    have hStart := integer_startsNumber n
    have hUnsigned := classify_unsigned n span
    simp only [if_true, List.cons_append, List.nil_append]
    have hHex : startsHex0x ('-' :: n.unsigned) = false := rfl
    rw [classify, hFloat, hHex, hStart]
    simp [hUnsigned, negated, wrap64_neg]

/-! The other way round: what is read as an integer is one of these texts. -/

theorem digitValue_some {c : Char} {d : Nat} (h : digitValue c = some d) : isHexDigit c = true := by
  unfold digitValue at h
  unfold isHexDigit
  split at h
  · rename_i hDigit
    simp [hDigit]
  · split at h
    · rename_i hLower
      simp [hLower]
    · split at h
      · rename_i hUpper
        simp [hUpper]
      · cases h

theorem digitsValue_ok {base : Nat} {raw : String} {span : Span} {digits : List Char} {a v : Int}
    (h : digitsValue base raw span a digits = .ok v) :
    ∀ c ∈ digits, NumBase.hex0x.isDigitOf c = true := by
  induction digits generalizing a with
  | nil => simp
  | cons c cs ih =>
    rw [digitsValue] at h
    have hBoth : NumBase.hex0x.isDigitOf c = true ∧ ∀ d ∈ cs, NumBase.hex0x.isDigitOf d = true := by
      cases hd : digitValue c with
      | some d =>
        rw [hd] at h
        dsimp only at h
        split at h
        · cases h
        · exact ⟨by simp [NumBase.isDigitOf, digitValue_some hd], ih h⟩
      | none =>
        rw [hd] at h
        dsimp only at h
        split at h
        · rename_i hUnderscore
          exact ⟨by simp [NumBase.isDigitOf, hUnderscore], ih h⟩
        · cases h
    exact fun d hMem => (List.mem_cons.mp hMem).elim (fun hEq => hEq ▸ hBoth.1) (hBoth.2 d)

theorem parseIntWithBase_ok {base : Nat} {tag : NumBase} {raw : String} {span : Span}
    {digits : List Char} {t : Tok} (h : parseIntWithBase digits base tag raw span = .ok t) :
    digits ≠ [] ∧ ∀ c ∈ digits, NumBase.hex0x.isDigitOf c = true := by
  unfold parseIntWithBase at h
  split at h
  · cases h
  · rename_i hEmpty
    cases hValue : digitsValue base raw span 0 digits with
    | error e =>
      rw [hValue] at h
      cases h
    | ok v => exact ⟨by simpa using hEmpty, digitsValue_ok hValue⟩

/-- The unsigned literal a text is, from the test that its marker calls for. -/
theorem integer_of_marked {c : Char} {b : NumBase} {digits : List Char} (hMark : [c] ∈ b.markers)
    (hNe : digits ≠ []) (h : ∀ d ∈ digits, b.isDigitOf d = true) :
    ∃ n : IntegerText, n.negative = false ∧ n.unsigned = c :: digits :=
  ⟨⟨false, b, [c], digits, hMark, hNe, h⟩, rfl, rfl⟩

theorem integer_of_digits {w : List Char} (hNe : w ≠ []) (h : ∀ d ∈ w, isDigit d = true) :
    ∃ n : IntegerText, n.negative = false ∧ n.unsigned = w :=
  ⟨⟨false, .decimal, [], w, List.mem_singleton.mpr rfl, hNe, h⟩, rfl, rfl⟩

theorem integer_of_0x {w : List Char} (hStart : startsHex0x w = true) (hNe : w.tail.tail ≠ [])
    (h : ∀ d ∈ w.tail.tail, NumBase.hex0x.isDigitOf d = true) :
    ∃ n : IntegerText, n.negative = false ∧ n.unsigned = w := by
  unfold startsHex0x at hStart
  split at hStart
  · rename_i digits
    exact ⟨⟨false, .hex0x, ['0', 'x'], digits, by decide, hNe, h⟩, rfl, rfl⟩
  · rename_i digits
    exact ⟨⟨false, .hex0x, ['0', 'X'], digits, by decide, hNe, h⟩, rfl, rfl⟩
  · cases hStart

/-- What the classifier makes of a text that is no integer literal and no float. -/
theorem classify_unmarked {c : Char} {cs : List Char} (span : Span)
    (hFloat : looksLikeFloat (c :: cs) = false)
    (hInteger : ¬ ∃ n : IntegerText, n.negative = false ∧ n.unsigned = c :: cs) :
    classify span (c :: cs) =
      if startsHex0x (c :: cs) then
        parseIntWithBase cs.tail 16 .hex0x (String.ofList (c :: cs)) span
      else if c = '-' && startsNumber cs then
        match negated (String.ofList (c :: cs)) (classify span cs) with
        | some tok => .ok tok
        | none => .ok (.word (String.ofList (c :: cs)))
      else .ok (.word (String.ofList (c :: cs))) := by
  have hHex : (c = '$' && !cs.isEmpty && cs.all isHexDigit) = false := by
    apply Bool.eq_false_iff.mpr
    intro h
    simp only [Bool.and_eq_true, decide_eq_true_eq, Bool.not_eq_true', List.isEmpty_eq_false_iff,
      List.all_eq_true] at h
    obtain ⟨⟨rfl, hNe⟩, hAll⟩ := h
    exact hInteger (integer_of_marked (b := .hex) (by decide) hNe hAll)
  have hBinary : (c = '%' && !cs.isEmpty && cs.all (fun d => d = '0' || d = '1')) = false := by
    apply Bool.eq_false_iff.mpr
    intro h
    rw [Bool.and_eq_true, Bool.and_eq_true, List.all_eq_true] at h
    obtain ⟨⟨hMark, hNe⟩, hAll⟩ := h
    obtain rfl : c = '%' := by simpa using hMark
    exact hInteger (integer_of_marked (b := .binary) (by decide) (by simpa using hNe) hAll)
  have hDecimal : (c = '#' && !cs.isEmpty && cs.all isDigit) = false := by
    apply Bool.eq_false_iff.mpr
    intro h
    simp only [Bool.and_eq_true, decide_eq_true_eq, Bool.not_eq_true', List.isEmpty_eq_false_iff,
      List.all_eq_true] at h
    obtain ⟨⟨rfl, hNe⟩, hAll⟩ := h
    exact hInteger (integer_of_marked (b := .decimalExplicit) (by decide) hNe hAll)
  have hDigits : (c :: cs).all isDigit = false := by
    apply Bool.eq_false_iff.mpr
    intro h
    exact hInteger (integer_of_digits (by simp) (List.all_eq_true.mp h))
  rw [classify, hFloat, hHex, hBinary, hDecimal, hDigits]
  rfl

/-- A text that is read as a number is a numeric one. -/
theorem classify_number {span : Span} {c : Char} {cs : List Char} {t : Tok} (hc : c ≠ '-')
    (h : classify span (c :: cs) = .ok t) :
    looksLikeFloat (c :: cs) = true ∨
      (∃ n : IntegerText, n.negative = false ∧ n.unsigned = c :: cs) ∨
      t = .word (String.ofList (c :: cs)) := by
  by_cases hFloat : looksLikeFloat (c :: cs) = true
  · exact .inl hFloat
  · by_cases hInteger : ∃ n : IntegerText, n.negative = false ∧ n.unsigned = c :: cs
    · exact .inr (.inl hInteger)
    · rw [classify_unmarked span (by simpa using hFloat) hInteger] at h
      split at h
      · rename_i hStart
        obtain ⟨hNe, hLegal⟩ := parseIntWithBase_ok h
        exact absurd (integer_of_0x hStart hNe hLegal) hInteger
      · rw [if_neg (by simp [hc])] at h
        exact .inr (.inr (Except.ok.inj h).symm)

theorem startsNumber_head {c : Char} {cs : List Char} (h : startsNumber (c :: cs) = true) :
    c ≠ '-' := by
  rintro rfl
  simp [startsNumber, startsBasePrefix, startsHex0x, isDigit] at h

/-- A text that is not numeric is read as a word. -/
theorem classify_word {w : List Char} (span : Span) (h : ¬ IsNumeric w) :
    classify span w = .ok (.word (String.ofList w)) := by
  unfold IsNumeric at h
  simp only [not_or, Bool.not_eq_true] at h
  obtain ⟨hFloat, hHex, hNone⟩ := h
  cases w with
  | nil => rfl
  | cons c cs =>
    have hInteger : ¬ ∃ n : IntegerText, n.negative = false ∧ n.unsigned = c :: cs := by
      rintro ⟨n, hPositive, hText⟩
      exact hNone ⟨n, by simp [IntegerText.text, hPositive, hText]⟩
    rw [classify_unmarked span hFloat hInteger, hHex]
    simp only [Bool.false_eq_true, if_false]
    split
    · rename_i hMinus
      simp only [Bool.and_eq_true, decide_eq_true_eq] at hMinus
      obtain ⟨rfl, hStart⟩ := hMinus
      have hRest : negated (String.ofList ('-' :: cs)) (classify span cs) = none := by
        cases cs with
        | nil => rfl
        | cons d ds =>
          cases hClass : classify span (d :: ds) with
          | error e => rfl
          | ok t =>
            rcases classify_number (startsNumber_head hStart) hClass with hF | ⟨n, _, hText⟩ | rfl
            · rw [looksLikeFloat_minus hF] at hFloat
              cases hFloat
            · refine absurd ⟨{ n with negative := true }, ?_⟩ hNone
              show '-' :: n.unsigned = _
              rw [hText]
            · rfl
      rw [hRest]
    · rfl

end FactorForth.Compiler.Lex
