import FactorForth.Correctness.StreamWords
import FactorForth.Protocols.Numbers

/-! The texts of a number: where `.`, `u.`, `n>$`, `n>string` and `s>n` agree. -/

namespace FactorForth.Correctness
open FactorForth.Library FactorForth.Protocols
open FactorForth.Cells (numberText code numberText_eq_iff numberText_injective)
open FactorForth.Semantics (LoopFrame)
variable {α : Type}

/-! The law. -/

section Law
variable (F : NumberWords α) (base : Nat) (n : Int) (text : List Char)

/-- The word takes the number and prints the text and a blank. -/
def Prints (w : ConsoleWord α) : Prop :=
  ∀ st fr h rs out, w ⟨.int n :: st, fr, h, ⟨rs, ⟨base, out⟩⟩⟩ =
    .ok ⟨st, fr, h, ⟨rs, ⟨base, out ++ text ++ [' ']⟩⟩⟩

/-- `n>$` leaves the bytes of the text. -/
def Shows : Prop :=
  ∀ other st h b, ∃ m, Cells.Ends (Cells.numberToString other) ⟨.int n :: st, h, base, b⟩ m ∧
    m.stack = .int (text.flatMap String.utf8EncodeChar).length :: .addr h.length 0 :: st ∧
    m.arrays = h ++ [text.flatMap String.utf8EncodeChar]

/-- The contents of a string of the text. -/
def textStore : Store (Obj α) := .rawvec ((text.map code).map .int)

/-- `n>string` leaves a new string of the text. -/
def MakesString : Prop :=
  ∀ st fr h rs out, nToString F ⟨.int n :: st, fr, h, ⟨rs, ⟨base, out⟩⟩⟩ =
    .ok ⟨.string (.darray h.length) :: st, fr, h ++ [textStore text], ⟨rs, ⟨base, out⟩⟩⟩

/-- `s>n` of a string of the text leaves the number and a true flag. -/
def ReadsBack : Prop :=
  ∀ st fr h rs out a, h[a]? = some (textStore text) →
    sToN F ⟨.string (.darray a) :: st, fr, h, ⟨rs, ⟨base, out⟩⟩⟩ =
      .ok ⟨.int (-1) :: .int n :: st, fr, h, ⟨rs, ⟨base, out⟩⟩⟩

/-- The words have one text of the number in the session's base. -/
structure AgreeOn : Prop where
  dot : Prints base n text (dot F)
  numberToString : Shows base n text
  nToString : MakesString F base n text
  uDot : Prints base n (numberText base (n % 2 ^ 64)) (uDot F)
  sToN : ReadsBack F base n text

def RenderersAgree : Prop := ∃ text, AgreeOn F base n text

end Law

/-! Runs. -/

section Runs
variable {F : NumberWords α} (hF : F.Lawful) {base : Nat} (hlow : 2 ≤ base) (hhigh : base ≤ 36) (n : Int)

theorem stringCodes_codes (codes : List Int) :
    stringCodes (codes.map .int : List (Val (Obj α))) = some codes := by
  induction codes with
  | nil => rfl
  | cons ch codes ih => rw [List.map_cons, stringCodes, ih, Option.map_some]

include hF

theorem numberToString_ten : F.numberToString (.int n) = .ok (numberText 10 n) := by
  rw [hF.ten]
  exact hF.renders n 10 (by decide) (by decide)

theorem nToString_run : MakesString F base n (numberText 10 n) := by
  intro st fr h rs out
  have hChars : numToStrChars F (⟨.int n :: st, fr, h, ⟨rs, ⟨base, out⟩⟩⟩ :
      Machine (Obj α) (Returns α Console)) =
      .ok ⟨.addr h.length :: st, fr, h ++ [textStore (numberText 10 n)], ⟨rs, ⟨base, out⟩⟩⟩ := by
    rw [numToStrChars, bind1_run, numberToString_ten hF]
    rfl
  rw [nToString, seq_cons, hChars]
  rfl

theorem sToN_run : ReadsBack F base n (numberText 10 n) := by
  intro st fr h rs out a hStore
  have hBack : F.stringToNumber ((numberText 10 n).map code) = some (.int n) :=
    hF.back n _ (hF.renders n 10 (by decide) (by decide))
  have hRead : strToNum F (⟨.addr a :: st, fr, h, ⟨rs, ⟨base, out⟩⟩⟩ :
      Machine (Obj α) (Returns α Console)) =
      .ok ⟨.int (-1) :: .int n :: st, fr, h, ⟨rs, ⟨base, out⟩⟩⟩ := by
    simp only [strToNum, withStore, hStore, textStore, Option.bind_some, Store.rawvec?, stringCodes_codes, hBack]
    rfl
  have hUnwrap : sToN F (⟨.string (.darray a) :: st, fr, h, ⟨rs, ⟨base, out⟩⟩⟩ :
      Machine (Obj α) (Returns α Console)) =
      strToNum F ⟨.addr a :: st, fr, h, ⟨rs, ⟨base, out⟩⟩⟩ >>= seq [] := rfl
  rw [hUnwrap, hRead]
  rfl

include hlow hhigh

theorem writeNumber_run : Prints base n (numberText base n) (writeNumber F) := by
  intro st fr h rs out
  have hText : toBase F writeOut (⟨.int base :: .int n :: st, fr, h, ⟨rs, ⟨base, out⟩⟩⟩ :
      Machine (Obj α) (Returns α Console)) =
      .ok ⟨st, fr, h, ⟨rs, ⟨base, out ++ numberText base n⟩⟩⟩ := by
    rw [toBase, bind2_run, hF.renders n base hlow hhigh]
    rfl
  have hBase : getNumberBase (⟨.int n :: st, fr, h, ⟨rs, ⟨base, out⟩⟩⟩ :
      Machine (Obj α) (Returns α Console)) =
      .ok ⟨.int base :: .int n :: st, fr, h, ⟨rs, ⟨base, out⟩⟩⟩ := rfl
  rw [writeNumber, seq_cons, hBase, ok_bind, seq_cons, hText]
  rfl

end Runs

/-! Where they agree. -/

/-- What a word prints is one text. -/
theorem Prints.unique {base : Nat} {n : Int} {text text' : List Char} {w : ConsoleWord α}
    (h : Prints base n text w) (h' : Prints base n text' w) : text = text' := by
  have hRun := (h [] [] [] [] []).symm.trans (h' [] [] [] [] [])
  have hOut := congrArg (fun m => m.world.rest.out) (Except.ok.inj hRun)
  exact List.append_cancel_right hOut

theorem MakesString.unique {F : NumberWords α} {base : Nat} {n : Int} {text text' : List Char}
    (h : MakesString F base n text) (h' : MakesString F base n text') : text = text' := by
  have hRun := (h [] [] [] [] []).symm.trans (h' [] [] [] [] [])
  have hHeap := congrArg (fun m => m.heap) (Except.ok.inj hRun)
  have hVals := Store.rawvec.inj (List.cons.inj hHeap).1
  have hCodes : text.map code = text'.map code :=
    List.map_injective_iff.mpr (fun _ _ hInt => Val.int.inj hInt) hVals
  exact List.map_injective_iff.mpr (fun _ _ hCode => Char.toNat_inj.mp (Int.ofNat.inj hCode)) hCodes

section Agree
variable {F : NumberWords α} (hF : F.Lawful) {base : Nat} (hlow : 2 ≤ base) (hhigh : base ≤ 36) {n : Int}
include hF hlow hhigh

theorem RenderersAgree.texts (hAgree : RenderersAgree F base n) :
    numberText base n = numberText 10 n ∧ numberText base n = numberText base (n % 2 ^ 64) := by
  obtain ⟨text, hOn⟩ := hAgree
  have hDot := hOn.dot.unique (writeNumber_run hF hlow hhigh n)
  have hString := hOn.nToString.unique (nToString_run hF n)
  have hUnsigned := hOn.uDot.unique (writeNumber_run hF hlow hhigh n)
  exact ⟨hDot.symm.trans hString, hUnsigned.symm⟩

theorem agreeOn_text (hTen : numberText base n = numberText 10 n) (hMod : n % 2 ^ 64 = n) :
    AgreeOn F base n (numberText base n) where
  dot := writeNumber_run hF hlow hhigh n
  numberToString := fun other st h b =>
    ⟨_, Cells.numberToString_ends other hlow hhigh n st h b, Cells.shown_text other _ st h⟩
  nToString := hTen ▸ nToString_run hF n
  uDot := by
    rw [hMod]
    exact writeNumber_run hF hlow hhigh n
  sToN := hTen ▸ sToN_run hF n

/-- The words agree on the numbers without a sign in base ten, and in every other base on those whose
one digit it has in common with base ten. -/
theorem renderersAgree_iff (hMin : -2 ^ 63 ≤ n) (hMax : n < 2 ^ 63) :
    RenderersAgree F base n ↔ 0 ≤ n ∧ (base = 10 ∨ n < base ∧ n < 10) := by
  constructor
  · intro hAgree
    obtain ⟨hTen, hUnsigned⟩ := hAgree.texts hF hlow hhigh
    have hMod : n = n % 2 ^ 64 := numberText_injective hlow hhigh hUnsigned
    have hNonneg : 0 ≤ n := by omega
    refine ⟨hNonneg, ?_⟩
    rcases (numberText_eq_iff hlow hhigh (by decide) (by decide) n).mp hTen with hBase | ⟨hOne, hOne'⟩
    · exact .inl hBase
    · exact .inr (by omega)
  · rintro ⟨hNonneg, hBase⟩
    have hMod : n % 2 ^ 64 = n := by omega
    have hTen : numberText base n = numberText 10 n := by
      rw [numberText_eq_iff hlow hhigh (by decide) (by decide)]
      exact hBase.imp id fun hOne => by omega
    exact ⟨_, agreeOn_text hF hlow hhigh hTen hMod⟩

end Agree

/-- Factor's words on integers. -/
def integerWords : NumberWords Unit where
  toBase
    | .int n, .int base => .ok (numberText base.toNat n)
    | _, _ => .error .noMethod
  numberToString
    | .int n => .ok (numberText 10 n)
    | _ => .error .noMethod
  stringToNumber codes := (Cells.readNumber 10 (codes.map fun ch => Char.ofNat ch.toNat)).map .int

theorem integerWords_lawful : integerWords.Lawful where
  renders _ _ _ _ := rfl
  ten _ := rfl
  back n text hText := by
    cases hText
    have hChars : ((numberText 10 n).map code).map (fun ch => Char.ofNat ch.toNat) = numberText 10 n := by
      rw [List.map_map]
      exact (List.map_congr_left fun c _ => Char.ofNat_toNat c).trans (List.map_id _)
    have hRead := Cells.readNumber_numberText (show 2 ≤ 10 by decide) (by decide) n
    show (Cells.readNumber 10 (((numberText 10 n).map code).map fun ch => Char.ofNat ch.toNat)).map _ = _
    rw [hChars, hRead, Option.map_some]

theorem renderersAgree_decimal : RenderersAgree integerWords 10 255 :=
  (renderersAgree_iff integerWords_lawful (by decide) (by decide) (by decide) (by decide)).mpr
    ⟨by decide, .inl rfl⟩

/-- In base 16, `.` prints `ff`, and `n>string` makes `255`. -/
theorem hex_disagrees : ¬ RenderersAgree integerWords 16 255 := by
  intro hAgree
  have hTexts := hAgree.texts integerWords_lawful (by decide) (by decide)
  exact absurd hTexts.1 (by decide +kernel)

end FactorForth.Correctness
