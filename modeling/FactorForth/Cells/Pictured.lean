import FactorForth.Library.Numerals
import FactorForth.Library.Outcome
import FactorForth.Cells.Machine

/-! Pictured numeric output: the words from `<#` to `#>`, and `n>$`. -/

namespace FactorForth.Cells
open FactorForth.Compiler FactorForth.Library

/-! The words. `other` is what the encoder writes for a code that is no character. -/

section Words
variable (other : Int → List UInt8)

def digitChars : List Char := "0123456789abcdefghijklmnopqrstuvwxyz".toList

theorem length_digitChars : digitChars.length = 36 := rfl

def code (c : Char) : Int := c.toNat

/-- `number-base get`. -/
def getNumberBase : Word := fun m => push (.int m.numberBase) m

/-- `digit-chars nth`. -/
def digitCharsNth : Word := fun m =>
  match m.stack with
  | .int n :: st =>
    if n < 0 then .error .bounds
    else match digitChars[n.toNat]? with
      | some c => .ok { m with stack := .int (code c) :: st }
      | none => .error .bounds
  | _ :: _ => .error .type
  | [] => .error .underflow

/-- `current-num-buf get push`. -/
def pushChar : Word := fun m =>
  match m.stack, m.currentNumBuf with
  | .int ch :: st, some buf => .ok { m with stack := st, currentNumBuf := some (buf ++ [ch]) }
  | _ :: _, _ => .error .type
  | [], _ => .error .underflow

def utf8 (ch : Int) : List UInt8 :=
  if 0 ≤ ch ∧ ch.toNat.isValidChar then String.utf8EncodeChar (Char.ofNat ch.toNat) else other ch

/-- `current-num-buf get >string reverse utf8 encode`. -/
def encodeNumBuf : Word := fun m =>
  push (.array m.arrays.length)
    { m with arrays := m.arrays ++ [(m.currentNumBuf.getD []).reverse.flatMap (utf8 other)] }

/-- `length` of a byte array. -/
def length : Word := fun m =>
  match m.stack with
  | .array ba :: st =>
    match m.arrays[ba]? with
    | some bytes => .ok { m with stack := .int bytes.length :: st }
    | none => .error .bounds
  | _ :: _ => .error .type
  | [] => .error .underflow

/-- `<#`. -/
def lessNumberSign : Word := fun m => .ok { m with currentNumBuf := some [] }

/-- `#`. -/
def numberSign : Word := seq [getNumberBase, slashMod, digitCharsNth, pushChar]

/-- `#S`. -/
def numberSignS (fuel : Nat) : Word :=
  seq [numberSign, until_ [dup, lit 0, equal] [numberSign] fuel]

def sign : Word := seq [lit 0, less, when_ [lit (code '-'), pushChar]]

def hold : Word := pushChar

/-- `#>`. -/
def numberSignGreater : Word := seq [
  drop,
  encodeNumBuf other,
  dup, length,
  dip [lit 0, newAddr]]

/-- `n>$`. -/
def numberToString (fuel : Nat) : Word :=
  seq [dup, abs, lessNumberSign, numberSignS fuel, swap, sign, numberSignGreater other]

end Words

/-- What the targets of these words run. -/
def picturedWord (other : Int → List UInt8) (fuel : Nat) : Target → Option Word
  | .builtin "kernel" "dup" => some dup
  | .builtin "kernel" "drop" => some drop
  | .builtin "kernel" "swap" => some swap
  | .builtin "kernel" "over" => some over_
  | .builtin "math" "abs" => some abs
  | .qualifiedBuiltin "forth.runtime" "<#" => some lessNumberSign
  | .qualifiedBuiltin "forth.runtime" "#" => some numberSign
  | .qualifiedBuiltin "forth.runtime" "#S" => some (numberSignS fuel)
  | .qualifiedBuiltin "forth.runtime" "sign" => some sign
  | .qualifiedBuiltin "forth.runtime" "hold" => some hold
  | .qualifiedBuiltin "forth.runtime" "#>" => some (numberSignGreater other)
  | .qualifiedBuiltin "forth.runtime" "n>$" => some (numberToString other fuel)
  | _ => none

/-! What they are for. -/

/-- A step of a program between `<#` and `#>`. -/
inductive Op where
  | lit (n : Int)
  | dup | drop | swap | over_ | abs
  | numberSign | numberSignS | hold | sign
  deriving DecidableEq

namespace Op

def ansName : Op → Option String
  | .lit _ => none
  | .dup => some "dup"
  | .drop => some "drop"
  | .swap => some "swap"
  | .over_ => some "over"
  | .abs => some "abs"
  | .numberSign => some "#"
  | .numberSignS => some "#s"
  | .hold => some "hold"
  | .sign => some "sign"

def word (op : Op) (fuel : Nat) : Word :=
  match op with
  | .lit n => Cells.lit n
  | .dup => Cells.dup
  | .drop => Cells.drop
  | .swap => Cells.swap
  | .over_ => Cells.over_
  | .abs => Cells.abs
  | .numberSign => Cells.numberSign
  | .numberSignS => Cells.numberSignS fuel
  | .hold => Cells.hold
  | .sign => Cells.sign

end Op

def steps (ops : List Op) (fuel : Nat) : Word := seq (ops.map fun op => op.word fuel)

/-- A program between `<#` and `#>`. -/
def pictured (other : Int → List UInt8) (ops : List Op) (fuel : Nat) : Word :=
  seq [lessNumberSign, steps ops fuel, numberSignGreater other]

def digitCode (d : Nat) : Int := code (digitChars.getD d ' ')

/-- What a step makes of the stack, and the characters that it produces, in the order it does. -/
def Op.effect (base : Nat) : Op → List Item → Option (List Item × List Int)
  | .lit n, st => some (.int n :: st, [])
  | .dup, x :: st => some (x :: x :: st, [])
  | .drop, _ :: st => some (st, [])
  | .swap, y :: x :: st => some (x :: y :: st, [])
  | .over_, y :: x :: st => some (x :: y :: x :: st, [])
  | .abs, .int n :: st => some (.int n.natAbs :: st, [])
  | .numberSign, .int n :: st =>
    if n.tmod base < 0 then none
    else some (.int (n.tdiv base) :: st, [digitCode (n.tmod base).toNat])
  | .numberSignS, .int n :: st =>
    if n < 0 then none else some (.int 0 :: st, (numeral base n.toNat).map digitCode)
  | .hold, .int ch :: st => some (st, [ch])
  | .sign, .int n :: st => some (st, if n < 0 then [code '-'] else [])
  | _, _ => none

def picture (base : Nat) : List Op → List Item → Option (List Item × List Int)
  | [], st => some (st, [])
  | op :: ops, st => do
    let now ← op.effect base st
    let later ← picture base ops now.1
    some (later.1, now.2 ++ later.2)

/-- The text that `n>$` is to yield. -/
def numberText (base : Nat) (n : Int) : List Char :=
  (if n < 0 then ['-'] else []) ++ digitText digitChars base n.natAbs

/-- The number that a text stands for. -/
def readNumber (base : Nat) : List Char → Option Int
  | '-' :: text => (readDigits digitChars base text).map fun n : Nat => -(n : Int)
  | text => (readDigits digitChars base text).map fun n : Nat => (n : Int)

/-! The words on a machine whose stack is known. -/

section Runs
variable (st : List Item) (h : List (List UInt8)) (buf : List Int)

@[simp] theorem pushChar_run (base ch : Int) :
    pushChar ⟨.int ch :: st, h, base, some buf⟩ = .ok ⟨st, h, base, some (buf ++ [ch])⟩ := rfl

@[simp] theorem getNumberBase_run (base : Int) (b : Option (List Int)) :
    getNumberBase ⟨st, h, base, b⟩ = .ok ⟨.int base :: st, h, base, b⟩ := rfl

theorem digitCharsNth_run (base : Int) {d : Nat} (hd : d < 36) (b : Option (List Int)) :
    digitCharsNth ⟨.int d :: st, h, base, b⟩ = .ok ⟨.int (digitCode d) :: st, h, base, b⟩ := by
  have hlength := length_digitChars
  have hnth : digitChars[d]? = some (digitChars.getD d ' ') := by
    rw [List.getD_eq_getElem?_getD, List.getElem?_eq_getElem (hlength ▸ hd)]
    rfl
  simp only [digitCharsNth, Int.toNat_natCast, hnth, digitCode]
  rw [if_neg (Int.not_lt.mpr (Int.natCast_nonneg d))]

variable {base : Nat} (hlow : 2 ≤ base) (hhigh : base ≤ 36)
include hlow hhigh

theorem numberSign_run (n : Int) : numberSign ⟨.int n :: st, h, base, some buf⟩ =
    if n.tmod base < 0 then .error .bounds
    else .ok ⟨.int (n.tdiv base) :: st, h, base, some (buf ++ [digitCode (n.tmod base).toNat])⟩ := by
  have hbase : (base : Int) ≠ 0 := by omega
  simp only [numberSign, seq_cons, getNumberBase_run, ok_bind, slashMod_run _ _ _ _ _ hbase]
  split
  · rename_i hneg
    simp only [digitCharsNth, if_pos hneg, error_bind]
  · rename_i hneg
    have hlt : n.tmod base < base := Int.tmod_lt_of_pos n (by omega)
    obtain ⟨d, hd⟩ := Int.eq_ofNat_of_zero_le (not_lt.mp hneg)
    have hd36 : d < 36 := by omega
    simp only [hd, digitCharsNth_run _ _ _ hd36, ok_bind, seq_cons, pushChar_run,
      Int.toNat_natCast, seq_nil]

theorem numberSign_nat (n : Nat) : numberSign ⟨.int n :: st, h, base, some buf⟩ =
    .ok ⟨.int (n / base : Nat) :: st, h, base, some (buf ++ [digitCode (n % base)])⟩ := by
  rw [numberSign_run st h buf hlow hhigh]
  have hmod : (n : Int).tmod base = (n % base : Nat) := rfl
  have hdiv : (n : Int).tdiv base = (n / base : Nat) := rfl
  rw [hmod, hdiv, if_neg (Int.not_lt.mpr (Int.natCast_nonneg _)), Int.toNat_natCast]

/-- The loop of `#S` ends after as many passes as the number has digits. -/
theorem until_digits (fuel n : Nat) :
    until_ [dup, lit 0, equal] [numberSign] fuel ⟨.int n :: st, h, base, some buf⟩ =
      if (Nat.digits base n).length < fuel then
        .ok ⟨.int 0 :: st, h, base, some (buf ++ (Nat.digits base n).map digitCode)⟩
      else .error .spent := by
  induction fuel generalizing n buf with
  | zero => rfl
  | succ fuel ih =>
    unfold until_
    simp only [seq_cons, dup_run, lit_run, equal_run, ok_bind, seq_nil, Item.truthy]
    by_cases hn : n = 0
    · simp [hn]
    · have hdigits := Nat.digits_def' hlow (Nat.pos_of_ne_zero hn)
      have hcast : (n : Int) ≠ 0 := Int.natCast_ne_zero.mpr hn
      simp only [hcast, decide_false, Bool.false_eq_true, if_false,
        numberSign_nat st h buf hlow hhigh, ok_bind, seq_nil, ih, hdigits, List.length_cons,
        Nat.add_lt_add_iff_right, List.map_cons, List.append_assoc, List.singleton_append]

theorem numberSignS_run (fuel n : Nat) : numberSignS fuel ⟨.int n :: st, h, base, some buf⟩ =
    if (Nat.digits base (n / base)).length < fuel then
      .ok ⟨.int 0 :: st, h, base, some (buf ++ (numeral base n).map digitCode)⟩
    else .error .spent := by
  have hnumeral : numeral base n = n % base :: Nat.digits base (n / base) := by
    unfold numeral
    split
    · rename_i hn
      simp [hn]
    · rename_i hn
      exact Nat.digits_def' hlow (Nat.pos_of_ne_zero hn)
  simp only [numberSignS, seq_cons, numberSign_nat st h buf hlow hhigh, ok_bind, bind_seq_nil,
    until_digits st h _ hlow hhigh, hnumeral, List.map_cons, List.append_assoc,
    List.singleton_append]

theorem numberSignS_ends (n : Nat) : Ends numberSignS ⟨.int n :: st, h, base, some buf⟩
    ⟨.int 0 :: st, h, base, some (buf ++ (numeral base n).map digitCode)⟩ := by
  refine ⟨(Nat.digits base (n / base)).length + 1, fun fuel hfuel => ?_⟩
  rw [numberSignS_run st h buf hlow hhigh, if_pos (Nat.lt_of_succ_le hfuel)]

omit hlow hhigh in
theorem tdiv_negative {n : Int} (hn : n < 0) (hmod : ¬ n.tmod base < 0) : n.tdiv base < 0 := by
  have hsum := Int.tmod_add_mul_tdiv n base
  by_contra hge
  have hprod := mul_nonneg (Int.natCast_nonneg base) (not_lt.mp hge)
  omega

/-- The remainders of a negative number do not all name a digit. -/
theorem until_negative (fuel : Nat) {n : Int} (hn : n < 0) (m : Machine) :
    until_ [dup, lit 0, equal] [numberSign] fuel ⟨.int n :: st, h, base, some buf⟩ ≠ .ok m := by
  induction fuel generalizing n buf with
  | zero => exact fun hrun => nomatch hrun
  | succ fuel ih =>
    unfold until_
    simp only [seq_cons, dup_run, lit_run, equal_run, ok_bind, bind_seq_nil, seq_nil, Item.truthy,
      hn.ne, decide_false, Bool.false_eq_true, if_false, numberSign_run st h buf hlow hhigh]
    split
    · exact fun hrun => nomatch hrun
    · rename_i hmod
      exact ih _ (tdiv_negative hn hmod)

theorem numberSignS_negative (fuel : Nat) {n : Int} (hn : n < 0) (m : Machine) :
    numberSignS fuel ⟨.int n :: st, h, base, some buf⟩ ≠ .ok m := by
  simp only [numberSignS, seq_cons, numberSign_run st h buf hlow hhigh]
  split
  · exact fun hrun => nomatch hrun
  · rename_i hmod
    rw [ok_bind, seq_cons, bind_seq_nil]
    exact until_negative st h _ hlow hhigh fuel (tdiv_negative hn hmod) m

end Runs

/-! Whole programs between `<#` and `#>`. -/

section Programs
variable {base : Nat} (hlow : 2 ≤ base) (hhigh : base ≤ 36)

@[simp] theorem sign_run (n : Int) (st : List Item) (h : List (List UInt8)) (base : Int)
    (buf : List Int) : sign ⟨.int n :: st, h, base, some buf⟩ =
      .ok ⟨st, h, base, some (buf ++ if n < 0 then [code '-'] else [])⟩ := by
  simp only [sign, seq_cons, lit_run, less_run, ok_bind, when_run, decide_eq_true_eq, bind_seq_nil]
  split
  · rfl
  · rw [List.append_nil]

include hlow hhigh

/-- Every step but `#S` does its effect at once or fails. -/
theorem word_effect {op : Op} (hop : op ≠ .numberSignS) (fuel : Nat) (st : List Item)
    (h : List (List UInt8)) (buf : List Int) : ∃ e, op.word fuel ⟨st, h, base, some buf⟩ =
      (op.effect base st).elim (.error e) fun p => .ok ⟨p.1, h, base, some (buf ++ p.2)⟩ := by
  cases op with
  | numberSignS => exact absurd rfl hop
  | lit n => exact ⟨.underflow, by simp [Op.word, Op.effect]⟩
  | dup | drop =>
    cases st <;> exact ⟨.underflow, by simp [Op.word, Op.effect, Cells.dup, Cells.drop, shuffle]⟩
  | swap | over_ =>
    rcases st with _ | ⟨x, _ | ⟨y, st⟩⟩ <;>
      exact ⟨.underflow, by simp [Op.word, Op.effect, Cells.swap, Cells.over_, shuffle]⟩
  | abs =>
    rcases st with _ | ⟨_ | _ | _ | _, st⟩
    · exact ⟨.underflow, rfl⟩
    · exact ⟨.type, by simp [Op.word, Op.effect]⟩
    all_goals exact ⟨.type, rfl⟩
  | hold =>
    rcases st with _ | ⟨_ | _ | _ | _, st⟩
    · exact ⟨.underflow, rfl⟩
    all_goals exact ⟨.type, rfl⟩
  | sign =>
    rcases st with _ | ⟨_ | _ | _ | _, st⟩
    · exact ⟨.underflow, rfl⟩
    · exact ⟨.type, by simp [Op.word, Op.effect]⟩
    all_goals exact ⟨.type, rfl⟩
  | numberSign =>
    rcases st with _ | ⟨n | _ | _ | _, st⟩
    · exact ⟨.underflow, rfl⟩
    · refine ⟨.bounds, ?_⟩
      rw [Op.word, numberSign_run st h buf hlow hhigh, Op.effect]
      split <;> rfl
    all_goals exact ⟨.type, rfl⟩

/-- A step that has what it takes ends with its effect, given time. -/
theorem word_of_effect {op : Op} {st st' : List Item} {chars : List Int}
    (heffect : op.effect base st = some (st', chars)) (h : List (List UInt8)) (buf : List Int) :
    Ends op.word ⟨st, h, base, some buf⟩ ⟨st', h, base, some (buf ++ chars)⟩ := by
  by_cases hop : op = .numberSignS
  · subst hop
    rcases st with _ | ⟨n | _ | _ | _, st⟩ <;> try cases heffect
    rw [Op.effect] at heffect
    split at heffect
    · cases heffect
    · rename_i hneg
      obtain ⟨d, rfl⟩ := Int.eq_ofNat_of_zero_le (not_lt.mp hneg)
      cases heffect
      exact numberSignS_ends st h buf hlow hhigh d
  · refine ⟨0, fun fuel _ => ?_⟩
    obtain ⟨e, he⟩ := word_effect hlow hhigh hop fuel st h buf
    rw [he, heffect]
    rfl

theorem effect_of_word {op : Op} {fuel : Nat} {st : List Item} {h : List (List UInt8)}
    {buf : List Int} {m : Machine} (hrun : op.word fuel ⟨st, h, base, some buf⟩ = .ok m) :
    ∃ st' chars, op.effect base st = some (st', chars) ∧ m = ⟨st', h, base, some (buf ++ chars)⟩ := by
  by_cases hop : op = .numberSignS
  · subst hop
    rcases st with _ | ⟨n | _ | _ | _, st⟩ <;> try cases hrun
    rcases lt_or_ge n 0 with hneg | hnonneg
    · exact absurd hrun (numberSignS_negative st h buf hlow hhigh fuel hneg m)
    · obtain ⟨d, rfl⟩ := Int.eq_ofNat_of_zero_le hnonneg
      rw [Op.word, numberSignS_run st h buf hlow hhigh] at hrun
      split at hrun
      · refine ⟨_, _, ?_, (Except.ok.inj hrun).symm⟩
        rw [Op.effect, if_neg (not_lt.mpr hnonneg), Int.toNat_natCast]
      · cases hrun
  · obtain ⟨e, he⟩ := word_effect hlow hhigh hop fuel st h buf
    rw [he] at hrun
    cases heffect : op.effect base st with
    | none => rw [heffect] at hrun; cases hrun
    | some p =>
      rw [heffect] at hrun
      exact ⟨p.1, p.2, rfl, (Except.ok.inj hrun).symm⟩

theorem steps_of_picture (ops : List Op) {st st' : List Item} {chars : List Int}
    (hpicture : picture base ops st = some (st', chars)) (h : List (List UInt8)) (buf : List Int) :
    Ends (steps ops) ⟨st, h, base, some buf⟩ ⟨st', h, base, some (buf ++ chars)⟩ := by
  induction ops generalizing st chars buf with
  | nil =>
    cases hpicture
    exact ⟨0, fun _ _ => by rw [List.append_nil]; rfl⟩
  | cons op ops ih =>
    obtain ⟨⟨mid, first⟩, heffect, hlater⟩ := Option.bind_eq_some_iff.mp hpicture
    obtain ⟨⟨last, more⟩, hmore, hchars⟩ := Option.bind_eq_some_iff.mp hlater
    cases hchars
    obtain ⟨k, hstep⟩ := word_of_effect hlow hhigh heffect h buf
    obtain ⟨l, hsteps⟩ := ih hmore (buf ++ first)
    refine ⟨max k l, fun fuel hfuel => ?_⟩
    have hrest := hsteps fuel (le_of_max_le_right hfuel)
    rw [List.append_assoc] at hrest
    rw [steps, List.map_cons, seq_cons, hstep fuel (le_of_max_le_left hfuel), ok_bind]
    exact hrest

theorem picture_of_steps (ops : List Op) {fuel : Nat} {st : List Item} {h : List (List UInt8)}
    {buf : List Int} {m : Machine}
    (hrun : steps ops fuel ⟨st, h, base, some buf⟩ = .ok m) :
    ∃ st' chars, picture base ops st = some (st', chars) ∧
      m = ⟨st', h, base, some (buf ++ chars)⟩ := by
  induction ops generalizing st buf with
  | nil =>
    cases hrun
    exact ⟨st, [], rfl, by rw [List.append_nil]⟩
  | cons op ops ih =>
    obtain ⟨mid, hstep, hrest⟩ := ok_of_bind hrun
    obtain ⟨st₁, first, heffect, rfl⟩ := effect_of_word hlow hhigh hstep
    obtain ⟨st₂, more, hmore, rfl⟩ := ih hrest
    refine ⟨st₂, first ++ more, ?_, by rw [List.append_assoc]⟩
    simp only [picture, heffect, hmore, Option.bind_eq_bind, Option.bind_some]

end Programs

section Results
variable (other : Int → List UInt8)

/-- The machine once `#>` has shown the characters, with `c-addr u` on top. -/
def shown (st : List Item) (h : List (List UInt8)) (base : Int) (chars : List Int) : Machine :=
  let bytes := chars.reverse.flatMap (utf8 other)
  ⟨.int bytes.length :: .addr h.length 0 :: st, h ++ [bytes], base, some chars⟩

theorem numberSignGreater_run (x : Item) (st : List Item) (h : List (List UInt8)) (base : Int)
    (chars : List Int) : numberSignGreater other ⟨x :: st, h, base, some chars⟩ =
      .ok (shown other st h base chars) := by
  simp [numberSignGreater, encodeNumBuf, length, shown]

theorem numberSignGreater_ok {st : List Item} {h : List (List UInt8)} {base : Int}
    {chars : List Int} {m : Machine}
    (hrun : numberSignGreater other ⟨st, h, base, some chars⟩ = .ok m) :
    ∃ x below, st = x :: below ∧ m = shown other below h base chars := by
  cases st with
  | nil => exact nomatch hrun
  | cons x below =>
    rw [numberSignGreater_run] at hrun
    exact ⟨x, below, rfl, (Except.ok.inj hrun).symm⟩

theorem utf8_code (c : Char) : utf8 other (code c) = String.utf8EncodeChar c := by
  have hvalid : c.toNat.isValidChar := c.valid
  rw [utf8, code, Int.toNat_natCast, if_pos ⟨Int.natCast_nonneg _, hvalid⟩, Char.ofNat_toNat]

variable {base : Nat} (hlow : 2 ≤ base) (hhigh : base ≤ 36)
include hlow hhigh

/-- A program from `<#` to `#>` shows what it pictures. -/
theorem pictured_iff (ops : List Op) (st : List Item) (h : List (List UInt8))
    (b : Option (List Int)) (m : Machine) :
    Ends (pictured other ops) ⟨st, h, base, b⟩ m ↔
      ∃ x below chars, picture base ops st = some (x :: below, chars) ∧
        m = shown other below h base chars := by
  constructor
  · rintro ⟨k, hends⟩
    have hrun := hends k le_rfl
    simp only [pictured, seq_cons, lessNumberSign, ok_bind] at hrun
    obtain ⟨mid, hsteps, hshow⟩ := ok_of_bind hrun
    obtain ⟨st', chars, hpicture, rfl⟩ := picture_of_steps hlow hhigh ops hsteps
    rw [seq_cons, bind_seq_nil, List.nil_append] at hshow
    obtain ⟨x, below, rfl, rfl⟩ := numberSignGreater_ok other hshow
    exact ⟨x, below, chars, hpicture, rfl⟩
  · rintro ⟨x, below, chars, hpicture, rfl⟩
    obtain ⟨k, hsteps⟩ := steps_of_picture hlow hhigh ops hpicture h []
    refine ⟨k, fun fuel hfuel => ?_⟩
    simp only [pictured, seq_cons, lessNumberSign, ok_bind, hsteps fuel hfuel, List.nil_append,
      numberSignGreater_run, seq_nil]

theorem digitText_codes (n : Nat) :
    (digitText digitChars base n).map code = (numeral base n).reverse.map digitCode := by
  have hlength := length_digitChars
  rw [digitText, List.map_filterMap, ← List.filterMap_eq_map']
  refine List.filterMap_congr fun d hd => ?_
  have hlt : d < digitChars.length := by
    have hdigit := numeral_lt hlow (List.mem_reverse.mp hd)
    omega
  simp [digitCode, hlt]

def produced (base : Nat) (n : Int) : List Int := (numberText base n).reverse.map code

theorem produced_eq (n : Int) : produced base n =
    (numeral base n.natAbs).map digitCode ++ if n < 0 then [code '-'] else [] := by
  have hdigits := digitText_codes hlow hhigh n.natAbs
  rw [produced, numberText, List.map_reverse, List.map_append, hdigits, List.reverse_append,
    List.map_reverse, List.reverse_reverse]
  split <;> rfl

theorem numberToString_ends (n : Int) (st : List Item) (h : List (List UInt8))
    (b : Option (List Int)) : Ends (numberToString other) ⟨.int n :: st, h, base, b⟩
      (shown other st h base (produced base n)) := by
  refine ⟨(Nat.digits base (n.natAbs / base)).length + 1, fun fuel hfuel => ?_⟩
  rw [produced_eq hlow hhigh]
  simp only [numberToString, seq_cons, dup_run, ok_bind, abs_run, lessNumberSign,
    numberSignS_run _ _ _ hlow hhigh, if_pos (Nat.lt_of_succ_le hfuel), List.nil_append, swap_run,
    sign_run, numberSignGreater_run, seq_nil]

omit hlow hhigh in
theorem digitText_no_sign (n : Nat) : (digitText digitChars base n).head? ≠ some '-' := by
  intro hhead
  have hmem : '-' ∈ digitText digitChars base n := List.mem_of_head? hhead
  obtain ⟨d, -, hd⟩ := List.mem_filterMap.mp hmem
  exact absurd (List.mem_of_getElem? hd) (by decide)

omit hlow hhigh in
theorem readNumber_unsigned {text : List Char} (htext : text.head? ≠ some '-') :
    readNumber base text = (readDigits digitChars base text).map fun n : Nat => (n : Int) := by
  unfold readNumber
  split
  · exact absurd rfl htext
  · rfl

/-- The text of `n>$` reads back as the number. -/
theorem readNumber_numberText (n : Int) : readNumber base (numberText base n) = some n := by
  have hread : readDigits digitChars base (digitText digitChars base n.natAbs) = some n.natAbs :=
    readDigits_digitText (by decide) hlow (hhigh.trans length_digitChars.ge) n.natAbs
  unfold numberText
  split
  · rename_i hneg
    rw [List.singleton_append, readNumber, hread, Option.map_some]
    exact congrArg some (by omega)
  · rename_i hneg
    rw [List.nil_append, readNumber_unsigned (digitText_no_sign _), hread,
      Option.map_some]
    exact congrArg some (by omega)

theorem numberText_injective {n n' : Int} (hsame : numberText base n = numberText base n') : n = n' := by
  have hread := readNumber_numberText hlow hhigh n
  rw [hsame, readNumber_numberText hlow hhigh] at hread
  exact (Option.some.inj hread).symm

/-- The text tells the base unless the number has one digit in both. -/
theorem numberText_eq_iff {base' : Nat} (hlow' : 2 ≤ base') (hhigh' : base' ≤ 36) (n : Int) :
    numberText base n = numberText base' n ↔ base = base' ∨ n.natAbs < base ∧ n.natAbs < base' := by
  rw [numberText, numberText, List.append_right_inj, ← numeral_eq_iff hlow hlow']
  exact digitText_eq_iff (by decide) hlow hlow' (hhigh.trans length_digitChars.ge)
    (hhigh'.trans length_digitChars.ge)

omit hlow hhigh in
theorem numberText_sign (n : Int) : (numberText base n).head? = some '-' ↔ n < 0 := by
  unfold numberText
  split
  · rename_i hneg
    exact iff_of_true rfl hneg
  · rename_i hneg
    exact iff_of_false (digitText_no_sign _) hneg

/-- No text of the number is shorter than that of `n>$`. -/
theorem numberText_shortest {n : Int} {text : List Char} (hread : readNumber base text = some n) :
    (numberText base n).length ≤ text.length := by
  unfold readNumber at hread
  split at hread
  · rename_i digits
    obtain ⟨d, hd, rfl⟩ := Option.map_eq_some_iff.mp hread
    have hshort := digitText_shortest hlow (hhigh.trans length_digitChars.ge) hd
    rw [numberText, List.length_append, Int.natAbs_neg, Int.natAbs_natCast, List.length_cons]
    split
    · rw [List.length_singleton]
      omega
    · rw [List.length_nil]
      omega
  · obtain ⟨d, hd, rfl⟩ := Option.map_eq_some_iff.mp hread
    have hshort := digitText_shortest hlow (hhigh.trans length_digitChars.ge) hd
    rw [numberText, if_neg (by omega), List.nil_append, Int.natAbs_natCast]
    exact hshort

omit hlow hhigh in
theorem shown_text (text : List Char) (st : List Item) (h : List (List UInt8)) :
    (shown other st h base (text.reverse.map code)).stack =
        .int (text.flatMap String.utf8EncodeChar).length :: .addr h.length 0 :: st ∧
      (shown other st h base (text.reverse.map code)).arrays =
        h ++ [text.flatMap String.utf8EncodeChar] := by
  have hbytes : (text.reverse.map code).reverse.flatMap (utf8 other) =
      text.flatMap String.utf8EncodeChar := by
    rw [List.map_reverse, List.reverse_reverse, List.flatMap_map]
    exact List.flatMap_congr fun c _ => utf8_code other c
  simp only [shown, hbytes, and_self]

omit hlow hhigh in
/-- The compiler binds the steps of a program to the words that run them. -/
theorem ansName_bound {op : Op} {name : String} (hname : op.ansName = some name) (fuel : Nat) :
    (builtinTable.lookup name).bind (picturedWord other fuel) = some (op.word fuel) := by
  cases op with
  | lit n => cases hname
  | _ =>
    cases hname
    rfl

/-- `n>$` shows the shortest text that reads back as the number, `#S` ends, and `#>` shows what was
produced in reverse. -/
theorem pictured_output :
    (∀ n st h b, ∃ m, Ends (numberToString other) ⟨.int n :: st, h, base, b⟩ m ∧
      m.stack = .int ((numberText base n).flatMap String.utf8EncodeChar).length ::
        .addr h.length 0 :: st ∧
      m.arrays = h ++ [(numberText base n).flatMap String.utf8EncodeChar]) ∧
    (∀ n, readNumber base (numberText base n) = some n ∧
      ((numberText base n).head? = some '-' ↔ n < 0) ∧
      ∀ text, readNumber base text = some n → (numberText base n).length ≤ text.length) ∧
    (∀ (n : Nat) st h buf, ∃ m, Ends numberSignS ⟨.int n :: st, h, base, some buf⟩ m) ∧
    ∀ ops st h b m, Ends (pictured other ops) ⟨st, h, base, b⟩ m ↔
      ∃ x below chars, picture base ops st = some (x :: below, chars) ∧
        m = shown other below h base chars := by
  refine ⟨fun n st h b => ?_, fun n => ?_, fun n st h buf => ?_, fun ops st h b m => ?_⟩
  · exact ⟨_, numberToString_ends other hlow hhigh n st h b, shown_text other _ st h⟩
  · exact ⟨readNumber_numberText hlow hhigh n, numberText_sign n,
      fun text => numberText_shortest hlow hhigh⟩
  · exact ⟨_, numberSignS_ends st h buf hlow hhigh n⟩
  · exact pictured_iff other hlow hhigh ops st h b m

end Results

/-- In base 16, -255 is shown as `-ff`. -/
theorem pictured_output_hex : ∃ m, Ends (numberToString fun _ => []) ⟨[.int (-255)], [], 16, none⟩ m ∧
    m.stack = [.int 3, .addr 0 0] ∧ m.arrays = [[45, 102, 102]] := by
  obtain ⟨m, hends, hstack, harrays⟩ :=
    (pictured_output (fun _ => []) (show 2 ≤ 16 by decide) (show 16 ≤ 36 by decide)).1
      (-255) [] [] none
  have htext : (numberText 16 (-255)).flatMap String.utf8EncodeChar = [45, 102, 102] := by
    decide +kernel
  rw [htext] at hstack harrays
  exact ⟨m, hends, hstack, harrays⟩

end FactorForth.Cells
