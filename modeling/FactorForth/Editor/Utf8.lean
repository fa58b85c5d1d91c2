import FactorForth.Editor.Commands

/-! Loading and saving text: what the decoder makes of the bytes at each place, against the encoding of
characters, and the text that comes back when it is saved. -/

namespace FactorForth.Editor

/-! Saving. -/

def RopeBuffer.toUtf8 (r : RopeBuffer) : Option (List Char) :=
  (r.slice 0 r.len).map codepointsToUtf8

/-! Bit patterns. -/

def IsTail (b : UInt8) : Prop := 128 ≤ b.toNat ∧ b.toNat < 192

/-- A byte and those behind it have the bit pattern of a sequence: the number that it spells, and how
many bytes belong to it after the first. -/
inductive Reads : UInt8 → List UInt8 → Nat → Nat → Prop where
  | one {b : UInt8} {rest : List UInt8} (h : b.toNat < 128) : Reads b rest b.toNat 0
  | two {b b₁ : UInt8} {rest : List UInt8} (h : 192 ≤ b.toNat ∧ b.toNat < 224) (h₁ : IsTail b₁) :
      Reads b (b₁ :: rest) ((b.toNat - 192) * 64 + (b₁.toNat - 128)) 1
  | three {b b₁ b₂ : UInt8} {rest : List UInt8} (h : 224 ≤ b.toNat ∧ b.toNat < 240)
      (h₁ : IsTail b₁) (h₂ : IsTail b₂) : Reads b (b₁ :: b₂ :: rest)
        ((b.toNat - 224) * 4096 + (b₁.toNat - 128) * 64 + (b₂.toNat - 128)) 2
  | four {b b₁ b₂ b₃ : UInt8} {rest : List UInt8} (h : 240 ≤ b.toNat ∧ b.toNat < 248)
      (h₁ : IsTail b₁) (h₂ : IsTail b₂) (h₃ : IsTail b₃) : Reads b (b₁ :: b₂ :: b₃ :: rest)
        ((b.toNat - 240) * 262144 + (b₁.toNat - 128) * 4096 + (b₂.toNat - 128) * 64 +
          (b₃.toNat - 128)) 3

/-- The least number that needs as many bytes. -/
def shortest : Nat → Nat
  | 0 => 0
  | 1 => 0x80
  | 2 => 0x800
  | _ => 0x10000

/-- The number is that of a character, in its shortest form. -/
def WellFormed (v n : Nat) : Prop := v.isValidChar ∧ shortest n ≤ v

/-- The bytes have the pattern of a sequence, but it is overlong, a surrogate or out of range. -/
def Misread (b : UInt8) (rest : List UInt8) : Prop := ∃ v n, Reads b rest v n ∧ ¬ WellFormed v n

theorem byte_cases {p : UInt8 → Prop} (h : ∀ n < 256, p (UInt8.ofNat n)) (b : UInt8) : p b := by
  have hb := h b.toNat b.toNat_lt
  rwa [UInt8.ofNat_toNat] at hb

theorem isContinuation_iff (b : UInt8) : isContinuation b = true ↔ IsTail b :=
  byte_cases (p := fun b => isContinuation b = true ↔ 128 ≤ b.toNat ∧ b.toNat < 192)
    (by decide +kernel) b

theorem lead_two (b : UInt8) : b &&& 0xE0 = 0xC0 ↔ 192 ≤ b.toNat ∧ b.toNat < 224 :=
  byte_cases (p := fun b => b &&& 0xE0 = 0xC0 ↔ 192 ≤ b.toNat ∧ b.toNat < 224) (by decide +kernel) b

theorem lead_three (b : UInt8) : b &&& 0xF0 = 0xE0 ↔ 224 ≤ b.toNat ∧ b.toNat < 240 :=
  byte_cases (p := fun b => b &&& 0xF0 = 0xE0 ↔ 224 ≤ b.toNat ∧ b.toNat < 240) (by decide +kernel) b

theorem lead_four (b : UInt8) : b &&& 0xF8 = 0xF0 ↔ 240 ≤ b.toNat ∧ b.toNat < 248 :=
  byte_cases (p := fun b => b &&& 0xF8 = 0xF0 ↔ 240 ≤ b.toNat ∧ b.toNat < 248) (by decide +kernel) b

/-! The decoder in arithmetic. -/

/-- A field of a byte, moved into place. -/
theorem low_toNat {b mask : UInt8} {shift : UInt32} {k : Nat} (hMask : mask.toNat = 2 ^ k - 1)
    (hShift : shift.toNat ≤ 18) : (low b mask shift).toNat = b.toNat % 2 ^ k * 2 ^ shift.toNat := by
  have hField : (b &&& mask).toNat = b.toNat % 2 ^ k := by
    rw [UInt8.toNat_and, hMask, Nat.and_two_pow_sub_one_eq_mod]
  have hSmall : b.toNat % 2 ^ k < 2 ^ 8 := Nat.lt_of_le_of_lt (Nat.mod_le _ _) b.toNat_lt
  have hFits : b.toNat % 2 ^ k * 2 ^ shift.toNat < 2 ^ 32 :=
    calc b.toNat % 2 ^ k * 2 ^ shift.toNat
        < 2 ^ 8 * 2 ^ shift.toNat := (Nat.mul_lt_mul_right (Nat.two_pow_pos _)).mpr hSmall
      _ ≤ 2 ^ 8 * 2 ^ 18 := Nat.mul_le_mul_left _ (Nat.pow_le_pow_right (by decide) hShift)
      _ < 2 ^ 32 := by decide
  rw [low, UInt32.toNat_shiftLeft, UInt8.toNat_toUInt32, hField,
    Nat.mod_eq_of_lt (Nat.lt_of_le_of_lt hShift (by decide)), Nat.shiftLeft_eq, Nat.mod_eq_of_lt hFits]

/-- Fields that do not meet add up. -/
theorem or_toNat {x y : UInt32} {a k : Nat} (hx : x.toNat = a * 2 ^ k) (hy : y.toNat < 2 ^ k) :
    (x ||| y).toNat = x.toNat + y.toNat := by
  rw [UInt32.toNat_or, hx, Nat.mul_comm, Nat.two_pow_add_eq_or_of_lt hy]

theorem pair_eq {x : UInt32} {v : Nat} (n : Nat) (h : x.toNat = v) : (x, n) = (UInt32.ofNat v, n) := by
  rw [← h, UInt32.ofNat_toNat]

namespace Reads

/-- A sequence that is more than its first byte starts with a leading byte. -/
theorem lead {b : UInt8} {rest : List UInt8} {v n : Nat} (h : Reads b rest v (n + 1)) :
    192 ≤ b.toNat := by
  cases h <;> omega

/-- There is only one way to read. -/
theorem unique {b : UInt8} {rest : List UInt8} {v v' n n' : Nat} (h : Reads b rest v n)
    (h' : Reads b rest v' n') : v = v' ∧ n = n' := by
  cases h <;> cases h' <;> omega

end Reads

theorem tail_toNat {b : UInt8} (h : IsTail b) : b.toNat % 2 ^ 6 = b.toNat - 128 := by
  unfold IsTail at h
  omega

theorem tail_low {b : UInt8} (h : IsTail b) : (low b 0x3F 0).toNat = b.toNat - 128 := by
  rw [low_toNat (k := 6) rfl (by decide), tail_toNat h]
  exact Nat.mul_one _

theorem tail_low_six {b : UInt8} (h : IsTail b) : (low b 0x3F 6).toNat = (b.toNat - 128) * 64 := by
  rw [low_toNat (k := 6) rfl (by decide), tail_toNat h]
  rfl

theorem tail_low_twelve {b : UInt8} (h : IsTail b) :
    (low b 0x3F 12).toNat = (b.toNat - 128) * 4096 := by
  rw [low_toNat (k := 6) rfl (by decide), tail_toNat h]
  rfl

theorem decode_two {b b₁ : UInt8} (h : 192 ≤ b.toNat ∧ b.toNat < 224) (h₁ : IsTail b₁) :
    (low b 0x1F 6 ||| low b₁ 0x3F 0).toNat = (b.toNat - 192) * 64 + (b₁.toNat - 128) := by
  have hLead : (low b 0x1F 6).toNat = (b.toNat - 192) * 2 ^ 6 := by
    rw [low_toNat (k := 5) rfl (by decide)]
    have hField : b.toNat % 2 ^ 5 = b.toNat - 192 := by omega
    rw [hField]
    rfl
  have hLast := tail_low h₁
  unfold IsTail at h₁
  have hSum := or_toNat (y := low b₁ 0x3F 0) hLead (by omega)
  omega

theorem decode_three {b b₁ b₂ : UInt8} (h : 224 ≤ b.toNat ∧ b.toNat < 240) (h₁ : IsTail b₁)
    (h₂ : IsTail b₂) : (low b 0x0F 12 ||| low b₁ 0x3F 6 ||| low b₂ 0x3F 0).toNat =
      (b.toNat - 224) * 4096 + (b₁.toNat - 128) * 64 + (b₂.toNat - 128) := by
  have hLead : (low b 0x0F 12).toNat = (b.toNat - 224) * 2 ^ 12 := by
    rw [low_toNat (k := 4) rfl (by decide)]
    have hField : b.toNat % 2 ^ 4 = b.toNat - 224 := by omega
    rw [hField]
    rfl
  have hNext := tail_low_six h₁
  have hLast := tail_low h₂
  unfold IsTail at h₁ h₂
  have hTwo := or_toNat (y := low b₁ 0x3F 6) hLead (by omega)
  have hThree := or_toNat (x := low b 0x0F 12 ||| low b₁ 0x3F 6) (y := low b₂ 0x3F 0)
    (a := (b.toNat - 224) * 64 + (b₁.toNat - 128)) (k := 6) (by omega) (by omega)
  omega

theorem decode_four {b b₁ b₂ b₃ : UInt8} (h : 240 ≤ b.toNat ∧ b.toNat < 248) (h₁ : IsTail b₁)
    (h₂ : IsTail b₂) (h₃ : IsTail b₃) :
    (low b 0x07 18 ||| low b₁ 0x3F 12 ||| low b₂ 0x3F 6 ||| low b₃ 0x3F 0).toNat =
      (b.toNat - 240) * 262144 + (b₁.toNat - 128) * 4096 + (b₂.toNat - 128) * 64 +
        (b₃.toNat - 128) := by
  have hLead : (low b 0x07 18).toNat = (b.toNat - 240) * 2 ^ 18 := by
    rw [low_toNat (k := 3) rfl (by decide)]
    have hField : b.toNat % 2 ^ 3 = b.toNat - 240 := by omega
    rw [hField]
    rfl
  have hSecond := tail_low_twelve h₁
  have hThird := tail_low_six h₂
  have hLast := tail_low h₃
  unfold IsTail at h₁ h₂ h₃
  have hTwo := or_toNat (y := low b₁ 0x3F 12) hLead (by omega)
  have hThree := or_toNat (x := low b 0x07 18 ||| low b₁ 0x3F 12) (y := low b₂ 0x3F 6)
    (a := (b.toNat - 240) * 64 + (b₁.toNat - 128)) (k := 12) (by omega) (by omega)
  have hFour := or_toNat (x := low b 0x07 18 ||| low b₁ 0x3F 12 ||| low b₂ 0x3F 6) (y := low b₃ 0x3F 0)
    (a := ((b.toNat - 240) * 64 + (b₁.toNat - 128)) * 64 + (b₂.toNat - 128)) (k := 6) (by omega) (by omega)
  omega

/-- Away from a carriage return the decoder takes a bit pattern, or leaves a mark. -/
theorem decodeOne_cases {b : UInt8} (hb : b ≠ 0x0D) (rest : List UInt8) :
    (∃ v n, Reads b rest v n ∧ decodeOne b rest = (UInt32.ofNat v, n)) ∨
      (∀ v n, ¬ Reads b rest v n) ∧ decodeOne b rest = (0xFFFD, 0) := by
  unfold decodeOne
  rw [if_neg hb]
  by_cases h1 : b < 0x80
  · rw [if_pos h1]
    exact .inl ⟨b.toNat, 0, .one (UInt8.lt_iff_toNat_lt.mp h1), pair_eq 0 (UInt8.toNat_toUInt32 b)⟩
  have h1' : ¬ b.toNat < 128 := fun h => h1 (UInt8.lt_iff_toNat_lt.mpr h)
  rw [if_neg h1]
  by_cases h2 : b &&& 0xE0 = 0xC0
  · have h2' := (lead_two b).mp h2
    rw [if_pos h2]
    rcases rest with _ | ⟨b₁, rest⟩
    · exact .inr ⟨fun v n h => by cases h; omega, rfl⟩
    · by_cases hTail : isContinuation b₁ = true
      · have hTail' := (isContinuation_iff b₁).mp hTail
        exact .inl ⟨_, 1, .two h2' hTail', by
          simp only [hTail, if_true, pair_eq 1 (decode_two h2' hTail')]⟩
      · refine .inr ⟨fun v n h => ?_, if_neg hTail⟩
        rw [isContinuation_iff] at hTail
        cases h <;> first | omega | contradiction
  have h2' := (lead_two b).not.mp h2
  rw [if_neg h2]
  by_cases h3 : b &&& 0xF0 = 0xE0
  · have h3' := (lead_three b).mp h3
    rw [if_pos h3]
    rcases rest with _ | ⟨b₁, _ | ⟨b₂, rest⟩⟩
    · exact .inr ⟨fun v n h => by cases h; omega, rfl⟩
    · exact .inr ⟨fun v n h => by cases h <;> omega, rfl⟩
    · by_cases hTails : (isContinuation b₁ && isContinuation b₂) = true
      · have hTails' := hTails
        rw [Bool.and_eq_true, isContinuation_iff, isContinuation_iff] at hTails'
        exact .inl ⟨_, 2, .three h3' hTails'.1 hTails'.2, by
          simp only [hTails, if_true, pair_eq 2 (decode_three h3' hTails'.1 hTails'.2)]⟩
      · refine .inr ⟨fun v n h => ?_, if_neg hTails⟩
        rw [Bool.and_eq_true, isContinuation_iff, isContinuation_iff] at hTails
        cases h with
        | one => omega
        | two => omega
        | three _ hb₁ hb₂ => exact hTails ⟨hb₁, hb₂⟩
        | four => omega
  have h3' := (lead_three b).not.mp h3
  rw [if_neg h3]
  by_cases h4 : b &&& 0xF8 = 0xF0
  · have h4' := (lead_four b).mp h4
    rw [if_pos h4]
    rcases rest with _ | ⟨b₁, _ | ⟨b₂, _ | ⟨b₃, rest⟩⟩⟩
    · exact .inr ⟨fun v n h => by cases h; omega, rfl⟩
    · exact .inr ⟨fun v n h => by cases h <;> omega, rfl⟩
    · exact .inr ⟨fun v n h => by cases h <;> omega, rfl⟩
    · by_cases hTails : (isContinuation b₁ && isContinuation b₂ && isContinuation b₃) = true
      · have hTails' := hTails
        simp only [Bool.and_eq_true, isContinuation_iff] at hTails'
        obtain ⟨⟨hb₁, hb₂⟩, hb₃⟩ := hTails'
        exact .inl ⟨_, 3, .four h4' hb₁ hb₂ hb₃, by
          simp only [hTails, if_true, pair_eq 3 (decode_four h4' hb₁ hb₂ hb₃)]⟩
      · refine .inr ⟨fun v n h => ?_, if_neg hTails⟩
        simp only [Bool.and_eq_true, isContinuation_iff] at hTails
        cases h with
        | one => omega
        | two => omega
        | three => omega
        | four _ hb₁ hb₂ hb₃ => exact hTails ⟨⟨hb₁, hb₂⟩, hb₃⟩
  have h4' := (lead_four b).not.mp h4
  rw [if_neg h4]
  exact .inr ⟨fun v n h => by cases h <;> omega, rfl⟩

/-! The encoding. -/

theorem byte_toNat {x : Nat} (h : x < 256) : (UInt8.ofNat x).toNat = x :=
  UInt8.toNat_ofNat_of_lt h

theorem byte_eq {b : UInt8} {x : Nat} (h : x = b.toNat) : UInt8.ofNat x = b := by
  rw [h, UInt8.ofNat_toNat]

theorem Reads.of_value {b : UInt8} {rest : List UInt8} {v v' n : Nat} (h : Reads b rest v n)
    (hv : v = v') : Reads b rest v' n := hv ▸ h

theorem char_lt (c : Char) : c.toNat < 1114112 := by
  have hValid : c.toNat.isValidChar := c.valid
  unfold Nat.isValidChar at hValid
  omega

theorem encode_one {c : Char} (h : c.toNat < 128) :
    String.utf8EncodeChar c = [UInt8.ofNat c.toNat] :=
  if_pos (Nat.le_of_lt_succ h)

theorem encode_two {c : Char} (h : 128 ≤ c.toNat) (h' : c.toNat < 2048) :
    String.utf8EncodeChar c =
      [UInt8.ofNat (c.toNat / 64 % 32 + 192), UInt8.ofNat (c.toNat % 64 + 128)] :=
  (if_neg (Nat.not_le_of_lt h)).trans (if_pos (Nat.le_of_lt_succ h'))

theorem encode_three {c : Char} (h : 2048 ≤ c.toNat) (h' : c.toNat < 65536) :
    String.utf8EncodeChar c = [UInt8.ofNat (c.toNat / 4096 % 16 + 224),
      UInt8.ofNat (c.toNat / 64 % 64 + 128), UInt8.ofNat (c.toNat % 64 + 128)] :=
  (if_neg (Nat.not_le_of_lt (Nat.lt_of_lt_of_le (by decide) h))).trans
    ((if_neg (Nat.not_le_of_lt h)).trans (if_pos (Nat.le_of_lt_succ h')))

theorem encode_four {c : Char} (h : 65536 ≤ c.toNat) :
    String.utf8EncodeChar c = [UInt8.ofNat (c.toNat / 262144 % 8 + 240),
      UInt8.ofNat (c.toNat / 4096 % 64 + 128), UInt8.ofNat (c.toNat / 64 % 64 + 128),
      UInt8.ofNat (c.toNat % 64 + 128)] :=
  (if_neg (Nat.not_le_of_lt (Nat.lt_of_lt_of_le (by decide) h))).trans
    ((if_neg (Nat.not_le_of_lt (Nat.lt_of_lt_of_le (by decide) h))).trans
      (if_neg (Nat.not_le_of_lt h)))

theorem tail_ofNat (x : Nat) : IsTail (UInt8.ofNat (x % 64 + 128)) := by
  unfold IsTail
  rw [byte_toNat (by omega)]
  omega

/-- The first byte of an encoding and those behind it have the bit pattern of the character. -/
theorem reads_of_encode {c : Char} {b : UInt8} {rest : List UInt8}
    (h : String.utf8EncodeChar c <+: b :: rest) :
    ∃ n, Reads b rest c.toNat n ∧ shortest n ≤ c.toNat ∧
      (String.utf8EncodeChar c).length = n + 1 := by
  have hMax := char_lt c
  obtain ⟨tail, hTail⟩ := h
  by_cases h1 : c.toNat < 128
  · rw [encode_one h1] at hTail ⊢
    obtain ⟨rfl, rfl⟩ := List.cons.inj hTail
    have hb := byte_toNat (x := c.toNat) (by omega)
    exact ⟨0, (Reads.one (by omega)).of_value hb, Nat.zero_le _, rfl⟩
  by_cases h2 : c.toNat < 2048
  · rw [encode_two (by omega) h2] at hTail ⊢
    obtain ⟨rfl, rfl⟩ := List.cons.inj hTail
    have hb := byte_toNat (x := c.toNat / 64 % 32 + 192) (by omega)
    have hb₁ := byte_toNat (x := c.toNat % 64 + 128) (by omega)
    exact ⟨1, (Reads.two (by omega) (tail_ofNat _)).of_value (by omega), Nat.le_of_not_lt h1, rfl⟩
  by_cases h3 : c.toNat < 65536
  · rw [encode_three (by omega) h3] at hTail ⊢
    obtain ⟨rfl, rfl⟩ := List.cons.inj hTail
    have hb := byte_toNat (x := c.toNat / 4096 % 16 + 224) (by omega)
    have hb₁ := byte_toNat (x := c.toNat / 64 % 64 + 128) (by omega)
    have hb₂ := byte_toNat (x := c.toNat % 64 + 128) (by omega)
    exact ⟨2, (Reads.three (by omega) (tail_ofNat _) (tail_ofNat _)).of_value (by omega),
      Nat.le_of_not_lt h2, rfl⟩
  · rw [encode_four (by omega)] at hTail ⊢
    obtain ⟨rfl, rfl⟩ := List.cons.inj hTail
    have hb := byte_toNat (x := c.toNat / 262144 % 8 + 240) (by omega)
    have hb₁ := byte_toNat (x := c.toNat / 4096 % 64 + 128) (by omega)
    have hb₂ := byte_toNat (x := c.toNat / 64 % 64 + 128) (by omega)
    have hb₃ := byte_toNat (x := c.toNat % 64 + 128) (by omega)
    exact ⟨3, (Reads.four (by omega) (tail_ofNat _) (tail_ofNat _) (tail_ofNat _)).of_value
      (by omega), Nat.le_of_not_lt h3, rfl⟩

theorem exists_char {v : Nat} (h : v.isValidChar) : ∃ c : Char, c.toNat = v := by
  have hv : (UInt32.ofNat v).toNat = v := by
    unfold Nat.isValidChar at h
    exact UInt32.toNat_ofNat_of_lt (by show v < 2 ^ 32; omega)
  have hValid : (UInt32.ofNat v).isValidChar := by
    show (UInt32.ofNat v).toNat.isValidChar
    rwa [hv]
  exact ⟨⟨UInt32.ofNat v, hValid⟩, hv⟩

/-- A bit pattern in its shortest form is the encoding of its character. -/
theorem encode_of_reads {c : Char} {b : UInt8} {rest : List UInt8} {n : Nat}
    (h : Reads b rest c.toNat n) (hShort : shortest n ≤ c.toNat) :
    String.utf8EncodeChar c <+: b :: rest ∧ (String.utf8EncodeChar c).length = n + 1 := by
  generalize hv : c.toNat = v at h hShort
  cases h with
  | one hb =>
    rw [encode_one (by omega), byte_eq hv]
    exact ⟨⟨rest, rfl⟩, rfl⟩
  | @two b₁ _ hb h₁ =>
    unfold IsTail at h₁
    have hLow : 0x80 ≤ c.toNat := hv ▸ hShort
    rw [encode_two hLow (by omega), byte_eq (b := b) (by omega), byte_eq (b := b₁) (by omega)]
    exact ⟨⟨_, rfl⟩, rfl⟩
  | @three b₁ b₂ _ hb h₁ h₂ =>
    unfold IsTail at h₁ h₂
    have hLow : 0x800 ≤ c.toNat := hv ▸ hShort
    rw [encode_three hLow (by omega), byte_eq (b := b) (by omega), byte_eq (b := b₁) (by omega),
      byte_eq (b := b₂) (by omega)]
    exact ⟨⟨_, rfl⟩, rfl⟩
  | @four b₁ b₂ b₃ _ hb h₁ h₂ h₃ =>
    unfold IsTail at h₁ h₂ h₃
    have hLow : 0x10000 ≤ c.toNat := hv ▸ hShort
    rw [encode_four hLow, byte_eq (b := b) (by omega), byte_eq (b := b₁) (by omega),
      byte_eq (b := b₂) (by omega), byte_eq (b := b₃) (by omega)]
    exact ⟨⟨_, rfl⟩, rfl⟩

/-! The places of a text. -/

/-- The bytes at which the decoder stops, each with those behind it. -/
def places : Nat → List UInt8 → List (UInt8 × List UInt8)
  | _, [] => []
  | skip + 1, _ :: rest => places skip rest
  | 0, b :: rest => (b, rest) :: places (decodeOne b rest).2 rest

theorem decodeFrom_places (skip : Nat) (bs : List UInt8) :
    decodeFrom skip bs = (places skip bs).map fun p => (decodeOne p.1 p.2).1 := by
  fun_induction decodeFrom skip bs with
  | case1 => rfl
  | case2 skip b rest ih => exact ih
  | case3 b rest ih => exact congrArg (List.cons _) ih

/-- The code point at a place is a line end for a carriage return, with the line feed behind it; else
the character whose encoding stands there, all of it taken; else a mark for the one byte. -/
def Proper (b : UInt8) (rest : List UInt8) : Prop :=
  if b = 0x0D then decodeOne b rest = (newline, if rest.head? = some 0x0A then 1 else 0)
  else
    (∃ c : Char, String.utf8EncodeChar c <+: b :: rest ∧
      decodeOne b rest = (c.val, (String.utf8EncodeChar c).length - 1)) ∨
    (∀ c : Char, ¬ String.utf8EncodeChar c <+: b :: rest) ∧ decodeOne b rest = (0xFFFD, 0)

theorem Reads.wellFormed {b : UInt8} {rest : List UInt8} {v : Nat} (h : Reads b rest v 0) :
    WellFormed v 0 := by
  cases h with
  | one hb => exact ⟨.inl (Nat.lt_trans hb (by decide)), Nat.zero_le _⟩

/-- What is misread is more than one byte. -/
theorem misread_lead {b : UInt8} {rest : List UInt8} (h : Misread b rest) : 192 ≤ b.toNat := by
  obtain ⟨v, n, hReads, hIll⟩ := h
  cases n with
  | zero => exact absurd hReads.wellFormed hIll
  | succ n => exact hReads.lead

/-- What the decoder takes for the encoding of a character at its place. -/
theorem decodeOne_encode {c : Char} {b : UInt8} {rest : List UInt8} (hb : b ≠ 0x0D)
    (h : String.utf8EncodeChar c <+: b :: rest) :
    decodeOne b rest = (c.val, (String.utf8EncodeChar c).length - 1) := by
  obtain ⟨n, hReads, _, hLength⟩ := reads_of_encode h
  rcases decodeOne_cases hb rest with ⟨v, n', hReads', hOne⟩ | ⟨hNone, _⟩
  · obtain ⟨rfl, rfl⟩ := hReads.unique hReads'
    rw [hOne, hLength]
    exact congrArg (·, n) UInt32.ofNat_toNat
  · exact absurd hReads (hNone _ _)

theorem proper_iff (b : UInt8) (rest : List UInt8) : Proper b rest ↔ ¬ Misread b rest := by
  unfold Proper
  by_cases hb : b = 0x0D
  · rw [if_pos hb]
    subst hb
    exact iff_of_true rfl fun h => absurd (misread_lead h) (by decide)
  rw [if_neg hb]
  constructor
  · rintro (⟨c, hEncode, _⟩ | ⟨_, hMark⟩) ⟨v, n, hReads, hIll⟩
    · obtain ⟨n', hReads', hShort, _⟩ := reads_of_encode hEncode
      obtain ⟨rfl, rfl⟩ := hReads.unique hReads'
      exact hIll ⟨c.valid, hShort⟩
    · rcases decodeOne_cases hb rest with ⟨v', n', hReads', hOne⟩ | ⟨hNone, _⟩
      · obtain ⟨rfl, rfl⟩ := hReads.unique hReads'
        rw [hOne] at hMark
        obtain rfl : n = 0 := congrArg Prod.snd hMark
        exact hIll hReads.wellFormed
      · exact hNone v n hReads
  · intro hWell
    rcases decodeOne_cases hb rest with ⟨v, n, hReads, hOne⟩ | ⟨hNone, hMark⟩
    · obtain ⟨hValid, hShort⟩ : WellFormed v n :=
        Classical.byContradiction fun hIll => hWell ⟨v, n, hReads, hIll⟩
      obtain ⟨c, rfl⟩ := exists_char hValid
      have hEncode := (encode_of_reads hReads hShort).1
      exact .inl ⟨_, hEncode, decodeOne_encode hb hEncode⟩
    · refine .inr ⟨fun c hEncode => ?_, hMark⟩
      obtain ⟨n, hReads, _⟩ := reads_of_encode hEncode
      exact hNone _ _ hReads

/-! What the decoder passes over. -/

theorem suffix_cons {b c : UInt8} {rest bs : List UInt8} (h : b :: rest <:+ c :: bs) :
    (b = c ∧ rest = bs) ∨ b :: rest <:+ bs :=
  (List.suffix_cons_iff.mp h).imp_left List.cons.inj

/-- The bytes taken with a first one are tails or a line feed. -/
theorem decodeOne_taken (b : UInt8) (rest : List UInt8) :
    ∀ c ∈ rest.take (decodeOne b rest).2, c.toNat < 192 := by
  by_cases hb : b = 0x0D
  · subst hb
    have hOne : decodeOne 0x0D rest = (newline, if rest.head? = some 0x0A then 1 else 0) := rfl
    rw [hOne]
    rcases rest with _ | ⟨d, rest⟩
    · simp
    · by_cases hd : d = 0x0A
      · subst hd
        simp
      · simp [hd]
  rcases decodeOne_cases hb rest with ⟨v, n, hReads, hOne⟩ | ⟨_, hMark⟩
  · rw [hOne]
    cases hReads with
    | one => simp
    | two _ h₁ => simpa using h₁.2
    | three _ h₁ h₂ => simpa using ⟨h₁.2, h₂.2⟩
    | four _ h₁ h₂ h₃ => simpa using ⟨h₁.2, h₂.2, h₃.2⟩
  · rw [hMark]
    simp

/-- A leading byte that is not passed over at the start is a place. -/
theorem mem_places (skip : Nat) (bs : List UInt8) (hSkip : ∀ c ∈ bs.take skip, c.toNat < 192)
    {b : UInt8} {rest : List UInt8} (hb : 192 ≤ b.toNat) (h : b :: rest <:+ bs) :
    (b, rest) ∈ places skip bs := by
  fun_induction places skip bs with
  | case1 => cases List.suffix_nil.mp h
  | case2 skip c bs ih =>
    rcases suffix_cons h with ⟨rfl, rfl⟩ | h
    · exact absurd (hSkip b (by simp)) (Nat.not_lt_of_le hb)
    · exact ih (fun d hd => hSkip d (List.mem_cons_of_mem _ hd)) h
  | case3 c bs ih =>
    rcases suffix_cons h with ⟨rfl, rfl⟩ | h
    · exact List.mem_cons_self
    · exact List.mem_cons_of_mem _ (ih (decodeOne_taken c bs) h)

/-- A place is one of the bytes. -/
theorem places_suffix (skip : Nat) (bs : List UInt8) :
    ∀ p ∈ places skip bs, p.1 :: p.2 <:+ bs := by
  fun_induction places skip bs with
  | case1 => simp
  | case2 skip c bs ih => exact fun p hp => (ih p hp).trans (List.suffix_cons c bs)
  | case3 c bs ih =>
    intro p hp
    rcases List.mem_cons.mp hp with rfl | hp
    · exact List.suffix_rfl
    · exact (ih p hp).trans (List.suffix_cons c bs)

/-! The byte-order mark. -/

def byteOrderMark : List UInt8 := [0xEF, 0xBB, 0xBF]

theorem byteOrderMark_reads (rest : List UInt8) :
    Reads 0xEF (0xBB :: 0xBF :: rest) ('\uFEFF').toNat 2 :=
  .three (by decide) (by unfold IsTail; decide) (by unfold IsTail; decide)

/-- How much of the text is passed over at the start. -/
def start (utf8 : List UInt8) : Nat := if utf8.take 3 = byteOrderMark then 3 else 0

theorem start_cases (utf8 : List UInt8) :
    (∃ rest, utf8 = 0xEF :: 0xBB :: 0xBF :: rest ∧ start utf8 = 3) ∨ start utf8 = 0 := by
  unfold start
  split
  · rename_i h
    rcases utf8 with _ | ⟨b, _ | ⟨b₁, _ | ⟨b₂, rest⟩⟩⟩
    · cases h
    · cases h
    · cases h
    · obtain ⟨rfl, rfl, rfl⟩ : b = 0xEF ∧ b₁ = 0xBB ∧ b₂ = 0xBF := by simpa [byteOrderMark] using h
      exact .inl ⟨rest, rfl, rfl⟩
  · exact .inr rfl

theorem utf8ToCodepoints_places (utf8 : List UInt8) :
    utf8ToCodepoints utf8 = (places (start utf8) utf8).map fun p => (decodeOne p.1 p.2).1 :=
  decodeFrom_places _ utf8

/-- Whatever is misread is misread at a place of the decoder. -/
theorem misread_place {utf8 : List UInt8} {b : UInt8} {rest : List UInt8} (h : b :: rest <:+ utf8)
    (hMisread : Misread b rest) : (b, rest) ∈ places (start utf8) utf8 := by
  have hb := misread_lead hMisread
  rcases start_cases utf8 with ⟨bs, rfl, hStart⟩ | hStart
  · rw [hStart]
    rcases suffix_cons h with ⟨rfl, rfl⟩ | h
    · obtain ⟨v, n, hReads, hIll⟩ := hMisread
      obtain ⟨rfl, rfl⟩ := hReads.unique (byteOrderMark_reads bs)
      exact absurd ⟨Char.valid _, by decide⟩ hIll
    · exact mem_places 2 _ (by simp) hb h
  · rw [hStart]
    exact mem_places 0 utf8 (by simp) hb h

/-- Each code point is the right one for its place exactly when nothing is misread. -/
theorem places_proper_iff (utf8 : List UInt8) :
    (∀ p ∈ places (start utf8) utf8, Proper p.1 p.2) ↔
      ∀ b rest, b :: rest <:+ utf8 → ¬ Misread b rest := by
  constructor
  · intro hProper b rest hSuffix hMisread
    exact (proper_iff b rest).mp (hProper _ (misread_place hSuffix hMisread)) hMisread
  · intro hWell p hp
    exact (proper_iff p.1 p.2).mpr (hWell p.1 p.2 (places_suffix _ utf8 p hp))

/-! A text and its bytes. -/

/-- The bytes of a text. -/
def encoded (text : List Char) : List UInt8 := text.flatMap String.utf8EncodeChar

def withoutByteOrderMark : List Char → List Char
  | '\uFEFF' :: rest => rest
  | text => text

/-- Line ends as line feeds. -/
def unixLines : List Char → List Char
  | '\r' :: '\n' :: rest => '\n' :: unixLines rest
  | '\r' :: rest => '\n' :: unixLines rest
  | c :: rest => c :: unixLines rest
  | [] => []

theorem encode_cons (c : Char) : ∃ b tail, String.utf8EncodeChar c = b :: tail :=
  List.exists_cons_of_ne_nil String.utf8EncodeChar_ne_nil

/-- An encoding that starts with a small byte is that byte. -/
theorem encode_small {c : Char} {b : UInt8} {rest : List UInt8}
    (h : String.utf8EncodeChar c <+: b :: rest) (hb : b.toNat < 128) : c.toNat = b.toNat := by
  obtain ⟨n, hReads, _⟩ := reads_of_encode h
  exact (hReads.unique (.one hb)).1

theorem encode_ne {c d : Char} {b : UInt8} {rest : List UInt8} (hc : c ≠ d)
    (h : String.utf8EncodeChar c <+: b :: rest) (hd : d.toNat < 128) : b ≠ UInt8.ofNat d.toNat := by
  rintro rfl
  have hByte : (UInt8.ofNat d.toNat).toNat = d.toNat := byte_toNat (by omega)
  exact hc (Char.toNat_inj.mp ((encode_small h (by omega)).trans hByte))

theorem decodeFrom_skip (pre bs : List UInt8) :
    decodeFrom pre.length (pre ++ bs) = decodeFrom 0 bs := by
  induction pre with
  | nil => rfl
  | cons b pre ih => exact ih

/-- The decoder takes the encoding of a character, and goes on behind it. -/
theorem decodeFrom_encode {c : Char} (hc : c ≠ '\r') (bs : List UInt8) :
    decodeFrom 0 (String.utf8EncodeChar c ++ bs) = c.val :: decodeFrom 0 bs := by
  obtain ⟨b, tail, hTail⟩ := encode_cons c
  have hPrefix : String.utf8EncodeChar c <+: b :: (tail ++ bs) := ⟨bs, by rw [hTail]; rfl⟩
  have hOne := decodeOne_encode (encode_ne hc hPrefix (by decide)) hPrefix
  rw [hTail] at hOne ⊢
  show (decodeOne b (tail ++ bs)).1 :: decodeFrom (decodeOne b (tail ++ bs)).2 (tail ++ bs) = _
  rw [hOne]
  exact congrArg (List.cons _) (decodeFrom_skip tail bs)

/-- The code points of a text, with its line ends as line feeds. -/
theorem decodeFrom_encoded (text : List Char) :
    decodeFrom 0 (encoded text) = (unixLines text).map Char.val := by
  fun_induction unixLines text with
  | case1 rest ih => exact congrArg (List.cons newline) ih
  | case2 rest hRest ih =>
    have hHead : (encoded rest).head? ≠ some 0x0A := by
      rcases rest with _ | ⟨c, rest⟩
      · simp [encoded]
      · obtain ⟨b, tail, hTail⟩ := encode_cons c
        have hPrefix : String.utf8EncodeChar c <+: b :: tail := ⟨[], by rw [hTail, List.append_nil]⟩
        have hb := encode_ne (d := '\n') (fun hc => hRest rest (by rw [hc])) hPrefix (by decide)
        rw [encoded, List.flatMap_cons, hTail]
        exact fun h => hb (Option.some.inj h)
    have hOne : decodeOne 0x0D (encoded rest) = (newline, 0) :=
      congrArg (newline, ·) (if_neg hHead)
    show (decodeOne 0x0D (encoded rest)).1 ::
      decodeFrom (decodeOne 0x0D (encoded rest)).2 (encoded rest) = _
    rw [hOne]
    exact congrArg (List.cons newline) ih
  | case3 c rest hLineEnd hReturn ih =>
    rw [encoded, List.flatMap_cons, decodeFrom_encode hReturn]
    exact congrArg (List.cons c.val) ih
  | case4 => rfl

/-- A text starts with the bytes of the mark when it starts with the mark. -/
theorem start_encoded {text : List Char} (h : ∀ rest, text ≠ '\uFEFF' :: rest) :
    start (encoded text) = 0 := by
  rcases start_cases (encoded text) with ⟨bs, hBytes, _⟩ | hStart
  · rcases text with _ | ⟨c, rest⟩
    · cases hBytes
    · have hPrefix : String.utf8EncodeChar c <+: 0xEF :: 0xBB :: 0xBF :: bs := by
        rw [← hBytes]
        exact List.prefix_append _ _
      obtain ⟨n, hReads, _⟩ := reads_of_encode hPrefix
      have hc : c.toNat = ('\uFEFF').toNat := (hReads.unique (byteOrderMark_reads bs)).1
      exact absurd (by rw [Char.toNat_inj.mp hc]) (h rest)
  · exact hStart

theorem utf8ToCodepoints_encoded (text : List Char) :
    utf8ToCodepoints (encoded text) = (unixLines (withoutByteOrderMark text)).map Char.val := by
  have hStart : utf8ToCodepoints (encoded text) = decodeFrom (start (encoded text)) (encoded text) :=
    rfl
  fun_cases withoutByteOrderMark text with
  | case1 rest => exact decodeFrom_encoded rest
  | case2 text h => rw [hStart, start_encoded h, decodeFrom_encoded]

theorem codepointsToUtf8_val (text : List Char) : codepointsToUtf8 (text.map Char.val) = text := by
  rw [codepointsToUtf8, List.map_map]
  exact (List.map_congr_left fun c _ => dif_pos c.valid).trans (List.map_id text)

/-- What is saved of the bytes of a text is that text, without its mark and with line feeds. -/
theorem toUtf8_fromUtf8 (text : List Char) :
    ∃ r, RopeBuffer.fromUtf8 (encoded text) = some r ∧
      r.toUtf8 = some (unixLines (withoutByteOrderMark text)) := by
  obtain ⟨r, hr, hExact, hContents⟩ := RopeBuffer.fromSlice_holds (utf8ToCodepoints (encoded text))
  refine ⟨r, hr, ?_⟩
  rw [RopeBuffer.toUtf8, RopeBuffer.slice_eq hExact, RopeBuffer.len_eq hExact]
  have hAll : listSlice r.contents 0 r.contents.length = r.contents := by simp [listSlice]
  rw [hAll, hContents, utf8ToCodepoints_encoded, Option.map_some, codepointsToUtf8_val]

/-- Loading and saving keep every text; and of any bytes each code point is the right one for its place
exactly when no overlong form, surrogate or number out of range is spelled anywhere. -/
theorem loading_and_saving (text : List Char) (utf8 : List UInt8) :
    (∃ r, RopeBuffer.fromUtf8 (encoded text) = some r ∧
      r.toUtf8 = some (unixLines (withoutByteOrderMark text))) ∧
    utf8ToCodepoints utf8 = ((places (start utf8) utf8).map fun p => (decodeOne p.1 p.2).1) ∧
    ((∀ p ∈ places (start utf8) utf8, Proper p.1 p.2) ↔
      ∀ b rest, b :: rest <:+ utf8 → ¬ Misread b rest) :=
  ⟨toUtf8_fromUtf8 text, utf8ToCodepoints_places utf8, places_proper_iff utf8⟩

/-- The bytes of a surrogate come out as one. -/
theorem surrogate_decoded :
    utf8ToCodepoints [0xED, 0xA0, 0x80] = [0xD800] ∧ ¬ (0xD800 : UInt32).isValidChar ∧
      ¬ ∀ p ∈ places (start [0xED, 0xA0, 0x80]) [0xED, 0xA0, 0x80], Proper p.1 p.2 := by
  refine ⟨by decide, by decide, fun h => ?_⟩
  have hReads : Reads 0xED [0xA0, 0x80] 0xD800 2 :=
    .three (by decide) (by unfold IsTail; decide) (by unfold IsTail; decide)
  refine (places_proper_iff _).mp h 0xED [0xA0, 0x80] List.suffix_rfl ⟨_, _, hReads, fun hWell => ?_⟩
  exact absurd hWell.1 (by decide)

end FactorForth.Editor
