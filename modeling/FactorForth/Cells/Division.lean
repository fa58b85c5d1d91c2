import FactorForth.Library.Floored
import FactorForth.Cells.Machine

/-! The division words of `forth.runtime` and what the words of ANS Forth leave that the compiler binds
to them. -/

namespace FactorForth.Cells
open FactorForth.Compiler FactorForth.Library

def flooredMod : Word := seq [
  tuck, mod,
  dup, lit 0, equal, ifElse [
    nip
  ] [
    twoDup, lit 0, less, swap, lit 0, less, xor,
    ifElse [plus] [nip]]]

/-- `ans/mod`. -/
def ansSlashMod : Word := bind2 fun a b => seq [
  push a, push b, flooredMod, bind1 fun r => seq [
    push a, push r, minus, push b, slashI, bind1 fun q => seq [
      push r, push q]]]

/-- `ans*/`. -/
def ansStarSlash : Word := seq [dip [times], slashI]

/-- `ans*/mod`. -/
def ansStarSlashMod : Word := bind3 fun a b c => seq [
  push a, push b, times, bind1 fun ab => seq [
    push ab, push c, flooredMod, bind1 fun r => seq [
      push ab, push r, minus, push c, slashI, bind1 fun q => seq [
        push r, push q]]]]

/-- What the targets of the division words run. -/
def divisionWord : Target → Option Word
  | .builtin "math" "/i" => some slashI
  | .qualifiedBuiltin "forth.runtime" "floored-mod" => some flooredMod
  | .qualifiedBuiltin "forth.runtime" "ans/mod" => some ansSlashMod
  | .qualifiedBuiltin "forth.runtime" "ans*/" => some ansStarSlash
  | .qualifiedBuiltin "forth.runtime" "ans*/mod" => some ansStarSlashMod
  | _ => none

/-- The word leaves `results` for `args` on any stack, the last one on top. -/
def Word.Leaves (w : Word) (args results : List Int) : Prop :=
  ∀ st h base buf, w ⟨args.reverse.map .int ++ st, h, base, buf⟩ =
    .ok ⟨results.reverse.map .int ++ st, h, base, buf⟩

/-- What a word of ANS Forth leaves that the compiler binds to one of the division words. -/
def Leaves (name : String) (args results : List Int) : Prop :=
  ∃ w, (builtinTable.lookup name).bind divisionWord = some w ∧ w.Leaves args results

/-- The division words on `a`, `b` and `c` are one floored division. -/
structure OneFlooredDivision (a b c : Int) : Prop where
  quotient : b ≠ 0 → ∃ q r, Floored a b q r ∧
    Leaves "/" [a, b] [q] ∧ Leaves "mod" [a, b] [r] ∧ Leaves "/mod" [a, b] [r, q]
  scaled : c ≠ 0 → ∃ q r, Floored (a * b) c q r ∧
    Leaves "*/" [a, b, c] [q] ∧ Leaves "*/mod" [a, b, c] [r, q]

section Specs
variable (st : List Item) (h : List (List UInt8)) (base : Int) (buf : Option (List Int)) (a : Int)

theorem flooredMod_run {b : Int} (hb : b ≠ 0) :
    flooredMod ⟨.int b :: .int a :: st, h, base, buf⟩ =
      .ok ⟨.int (a.fmod b) :: st, h, base, buf⟩ := by
  have hxor : (decide (a.tmod b < 0) ^^ decide (b < 0)) = decide (a.tmod b < 0 ↔ 0 < b) := by
    have hneg : b < 0 ↔ ¬ 0 < b := by omega
    by_cases hr : a.tmod b < 0 <;> by_cases hpos : 0 < b <;> simp [hneg, hr, hpos]
  rw [fmod_eq_tmod_or hb]
  simp only [flooredMod, seq_cons, tuck_run, ok_bind, mod_run _ _ _ _ _ hb, dup_run, lit_run,
    equal_run, ifElse_run, bind_seq_nil, twoDup_run, less_run, swap_run, xor_run, hxor,
    decide_eq_true_eq, seq_nil, nip_run, plus_run]
  by_cases hzero : a.tmod b = 0
  · simp only [hzero, if_true, ne_eq, not_true_eq_false, false_and, if_false]
  · simp only [hzero, if_false, ne_eq, not_false_eq_true, true_and]
    split
    · rw [add_comm]
    · rfl

theorem ansSlashMod_run {b : Int} (hb : b ≠ 0) :
    ansSlashMod ⟨.int b :: .int a :: st, h, base, buf⟩ =
      .ok ⟨.int (a.fdiv b) :: .int (a.fmod b) :: st, h, base, buf⟩ := by
  simp [ansSlashMod, flooredMod_run _ _ _ _ _ hb, slashI_run _ _ _ _ _ hb, tdiv_sub_fmod hb]

theorem ansStarSlash_run (b : Int) {c : Int} (hc : c ≠ 0) :
    ansStarSlash ⟨.int c :: .int b :: .int a :: st, h, base, buf⟩ =
      .ok ⟨.int ((a * b).tdiv c) :: st, h, base, buf⟩ := by
  simp [ansStarSlash, slashI_run _ _ _ _ _ hc]

theorem ansStarSlashMod_run (b : Int) {c : Int} (hc : c ≠ 0) :
    ansStarSlashMod ⟨.int c :: .int b :: .int a :: st, h, base, buf⟩ =
      .ok ⟨.int ((a * b).fdiv c) :: .int ((a * b).fmod c) :: st, h, base, buf⟩ := by
  simp [ansStarSlashMod, flooredMod_run _ _ _ _ _ hc, slashI_run _ _ _ _ _ hc, tdiv_sub_fmod hc]

end Specs

/-- What a word of ANS Forth leaves, from a run of the word that it is bound to. -/
theorem leaves_iff {name : String} {w : Word} {args results : List Int}
    (hw : (builtinTable.lookup name).bind divisionWord = some w)
    (hrun : w.Leaves args results) (xs : List Int) : Leaves name args xs ↔ xs = results := by
  constructor
  · rintro ⟨w', hw', hxs⟩
    obtain rfl := Option.some.inj (hw.symm.trans hw')
    have hstack := (hxs [] [] 0 none).symm.trans (hrun [] [] 0 none)
    have hmap : xs.reverse.map Item.int = results.reverse.map Item.int := by
      simpa only [Except.ok.injEq, Machine.mk.injEq, List.append_nil, and_true] using hstack
    have hrev := (List.map_injective_iff.mpr fun _ _ h => Item.int.inj h) hmap
    exact List.reverse_injective hrev
  · rintro rfl
    exact ⟨w, hw, hrun⟩

section Leaves
variable (a b c : Int) (xs : List Int)

theorem slash_leaves (hb : b ≠ 0) : Leaves "/" [a, b] xs ↔ xs = [a.tdiv b] :=
  leaves_iff rfl (fun st h base buf => slashI_run st h base buf a hb) xs

theorem mod_leaves (hb : b ≠ 0) : Leaves "mod" [a, b] xs ↔ xs = [a.fmod b] :=
  leaves_iff rfl (fun st h base buf => flooredMod_run st h base buf a hb) xs

theorem slashMod_leaves (hb : b ≠ 0) : Leaves "/mod" [a, b] xs ↔ xs = [a.fmod b, a.fdiv b] :=
  leaves_iff rfl (fun st h base buf => ansSlashMod_run st h base buf a hb) xs

theorem starSlash_leaves (hc : c ≠ 0) : Leaves "*/" [a, b, c] xs ↔ xs = [(a * b).tdiv c] :=
  leaves_iff rfl (fun st h base buf => ansStarSlash_run st h base buf a b hc) xs

theorem starSlashMod_leaves (hc : c ≠ 0) :
    Leaves "*/mod" [a, b, c] xs ↔ xs = [(a * b).fmod c, (a * b).fdiv c] :=
  leaves_iff rfl (fun st h base buf => ansStarSlashMod_run st h base buf a b hc) xs

end Leaves

/-- The division words are one floored division where truncation does not differ from it. -/
theorem floored_division_iff (a b c : Int) : OneFlooredDivision a b c ↔
    (b ≠ 0 → b ∣ a ∨ 0 < a * b) ∧ (c ≠ 0 → c ∣ a * b ∨ 0 < a * b * c) := by
  constructor
  · rintro ⟨hquotient, hscaled⟩
    refine ⟨fun hb => ?_, fun hc => ?_⟩
    · obtain ⟨q, r, hfloored, hslash, -, -⟩ := hquotient hb
      obtain ⟨hq, -⟩ := (floored_iff hb).mp hfloored
      have htdiv := List.head_eq_of_cons_eq ((slash_leaves a b _ hb).mp hslash)
      exact (tdiv_eq_fdiv_iff hb).mp (htdiv.symm.trans hq.symm)
    · obtain ⟨q, r, hfloored, hslash, -⟩ := hscaled hc
      obtain ⟨hq, -⟩ := (floored_iff hc).mp hfloored
      have htdiv := List.head_eq_of_cons_eq ((starSlash_leaves a b c _ hc).mp hslash)
      exact (tdiv_eq_fdiv_iff hc).mp (htdiv.symm.trans hq.symm)
  · rintro ⟨hquotient, hscaled⟩
    refine ⟨fun hb => ?_, fun hc => ?_⟩
    · refine ⟨_, _, floored_fdiv_fmod hb, ?_, ?_, ?_⟩
      · rw [slash_leaves a b _ hb, (tdiv_eq_fdiv_iff hb).mpr (hquotient hb)]
      · rw [mod_leaves a b _ hb]
      · rw [slashMod_leaves a b _ hb]
    · refine ⟨_, _, floored_fdiv_fmod hc, ?_, ?_⟩
      · rw [starSlash_leaves a b c _ hc, (tdiv_eq_fdiv_iff hc).mpr (hscaled hc)]
      · rw [starSlashMod_leaves a b c _ hc]

/-- `-7 2 /` leaves -3, where `-7 2 MOD` leaves 1. -/
theorem negative_dividend_truncated : ¬ OneFlooredDivision (-7) 2 3 := by
  rintro ⟨hquotient, -⟩
  obtain ⟨q, r, hfloored, hslash, -, -⟩ := hquotient (by decide)
  obtain ⟨hq, -⟩ := (floored_iff (by decide)).mp hfloored
  have htdiv : q = -3 := List.head_eq_of_cons_eq ((slash_leaves (-7) 2 _ (by decide)).mp hslash)
  rw [htdiv] at hq
  exact absurd hq (by decide)

end FactorForth.Cells
