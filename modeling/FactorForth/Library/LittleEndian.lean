import Mathlib.Data.List.Basic
import Mathlib.Tactic.Ring

/-! Integers of a fixed width in bytes, the least significant byte first, and bytes written over
others. -/

namespace FactorForth.Library

/-- The low `width` bytes of an integer in two's complement. -/
def bytesOf : Nat → Int → List UInt8
  | 0, _ => []
  | width + 1, x => UInt8.ofNat (x % 256).toNat :: bytesOf width (x / 256)

/-- The unsigned number that bytes spell. -/
def valueOf : List UInt8 → Nat
  | [] => 0
  | b :: bs => b.toNat + 256 * valueOf bs

@[simp] theorem length_bytesOf (width : Nat) (x : Int) : (bytesOf width x).length = width := by
  induction width generalizing x with
  | zero => rfl
  | succ width ih => rw [bytesOf, List.length_cons, ih]

theorem toNat_lowByte (x : Int) : ((UInt8.ofNat (x % 256).toNat).toNat : Int) = x % 256 := by
  have hlow : 0 ≤ x % 256 := Int.emod_nonneg x (by decide)
  have hhigh : x % 256 < 256 := Int.emod_lt_of_pos x (by decide)
  rw [UInt8.toNat_ofNat', Nat.mod_eq_of_lt (by omega)]
  omega

theorem emod_pow_succ (x : Int) (width : Nat) :
    x % 256 ^ (width + 1) = x % 256 + 256 * (x / 256 % 256 ^ width) := by
  have hpos : (0 : Int) < 256 ^ width := Int.pow_pos (by decide)
  rw [Int.pow_succ]
  generalize (256 : Int) ^ width = p at hpos
  have hlow : 0 ≤ x % 256 := Int.emod_nonneg x (by decide)
  have hhigh : x % 256 < 256 := Int.emod_lt_of_pos x (by decide)
  have hnonneg : 0 ≤ x / 256 % p := Int.emod_nonneg _ hpos.ne'
  have hlt : x / 256 % p < p := Int.emod_lt_of_pos _ hpos
  have hsplit : x = x % 256 + 256 * (x / 256 % p) + p * 256 * (x / 256 / p) := by
    calc x = x % 256 + 256 * (x / 256) := (Int.emod_add_mul_ediv x 256).symm
      _ = x % 256 + 256 * (x / 256 % p + p * (x / 256 / p)) := by
          rw [Int.emod_add_mul_ediv (x / 256) p]
      _ = x % 256 + 256 * (x / 256 % p) + p * 256 * (x / 256 / p) := by ring
  conv_lhs => rw [hsplit]
  rw [Int.add_mul_emod_self_left]
  exact Int.emod_eq_of_lt (by omega) (by omega)

theorem bytesOf_byte (b : UInt8) : bytesOf 1 b.toNat = [b] := by
  have hlow : ((b.toNat : Int) % 256).toNat = b.toNat := by
    have hlt := b.toNat_lt
    omega
  rw [bytesOf, bytesOf, hlow, UInt8.ofNat_toNat]

theorem valueOf_bytesOf (width : Nat) (x : Int) :
    (valueOf (bytesOf width x) : Int) = x % 256 ^ width := by
  induction width generalizing x with
  | zero => simp [bytesOf, valueOf]
  | succ width ih =>
    rw [bytesOf, valueOf, Int.natCast_add, Int.natCast_mul, toNat_lowByte, ih, emod_pow_succ]
    rfl

/-- Bytes with others written over them from an offset on. -/
def overwrite (bs : List UInt8) (off : Nat) (new : List UInt8) : List UInt8 :=
  bs.take off ++ new ++ bs.drop (off + new.length)

section Overwrite
variable {bs new : List UInt8} {off : Nat} (hfit : off + new.length ≤ bs.length)
include hfit

theorem length_overwrite : (overwrite bs off new).length = bs.length := by
  rw [overwrite, List.length_append, List.length_append, List.length_take, List.length_drop]
  omega

theorem getElem?_overwrite (i : Nat) : (overwrite bs off new)[i]? =
    if off ≤ i ∧ i < off + new.length then new[i - off]? else bs[i]? := by
  have htake : (bs.take off).length = off := by
    rw [List.length_take]
    omega
  rw [overwrite, List.append_assoc]
  by_cases hlow : off ≤ i
  · rw [List.getElem?_append_right (htake.symm ▸ hlow), htake]
    by_cases hhigh : i < off + new.length
    · rw [List.getElem?_append_left (by omega), if_pos ⟨hlow, hhigh⟩]
    · rw [List.getElem?_append_right (by omega), List.getElem?_drop, if_neg (fun h => hhigh h.2)]
      congr 1
      omega
  · rw [List.getElem?_append_left (by omega), List.getElem?_take, if_pos (not_le.mp hlow),
      if_neg fun h => hlow h.1]

theorem take_drop_overwrite : ((overwrite bs off new).drop off).take new.length = new := by
  have htake : (bs.take off).length = off := by
    rw [List.length_take]
    omega
  rw [overwrite, List.append_assoc, List.drop_append_of_le_length htake.ge,
    List.drop_of_length_le htake.le, List.nil_append, List.take_left]

end Overwrite

@[simp] theorem overwrite_nil (bs : List UInt8) (off : Nat) : overwrite bs off [] = bs := by
  rw [overwrite, List.append_nil, List.length_nil, Nat.add_zero, List.take_append_drop]

/-- Bytes written right behind others. -/
theorem overwrite_overwrite {bs xs ys : List UInt8} {off : Nat}
    (hfit : off + xs.length + ys.length ≤ bs.length) :
    overwrite (overwrite bs off xs) (off + xs.length) ys = overwrite bs off (xs ++ ys) := by
  have hxs : off + xs.length ≤ bs.length := by omega
  have hboth : off + (xs ++ ys).length ≤ bs.length := by
    rw [List.length_append]
    omega
  have hys : off + xs.length + ys.length ≤ (overwrite bs off xs).length := by
    rwa [length_overwrite hxs]
  refine List.ext_getElem? fun i => ?_
  rw [getElem?_overwrite hys, getElem?_overwrite hxs, getElem?_overwrite hboth, List.length_append]
  by_cases hi : off + xs.length ≤ i ∧ i < off + xs.length + ys.length
  · rw [if_pos hi, if_pos (by omega), List.getElem?_append_right (by omega), Nat.sub_sub]
  · rw [if_neg hi]
    by_cases hlow : off ≤ i ∧ i < off + xs.length
    · rw [if_pos hlow, if_pos (by omega), List.getElem?_append_left (by omega)]
    · rw [if_neg hlow, if_neg (by omega)]

end FactorForth.Library
