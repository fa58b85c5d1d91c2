import FactorForth.Library.LittleEndian
import FactorForth.Library.Outcome
import FactorForth.Cells.Machine

/-! Cell-addressed memory: the words that fetch, store, fill and move bytes behind an `nf-addr`. -/

namespace FactorForth.Cells
open FactorForth.Compiler FactorForth.Library

/-! The words. -/

def baSlot : Word := fun m =>
  match m.stack with
  | .addr ba _ :: st => .ok { m with stack := .array ba :: st }
  | _ :: _ => .error .type
  | [] => .error .underflow

def offSlot : Word := fun m =>
  match m.stack with
  | .addr _ off :: st => .ok { m with stack := .int off :: st }
  | _ :: _ => .error .type
  | [] => .error .underflow

/-- `alien-unsigned-cell ( c-ptr n -- value )` for a width of eight bytes, `alien-unsigned-1` for one. -/
def alienUnsigned (width : Nat) : Word := fun m =>
  match m.stack with
  | .int off :: .array ba :: st =>
    match m.arrays[ba]? with
    | some bytes =>
      if 0 ≤ off ∧ off + width ≤ bytes.length then
        .ok { m with stack := .int (valueOf ((bytes.drop off.toNat).take width)) :: st }
      else .error .bounds
    | none => .error .bounds
  | _ :: _ :: _ => .error .type
  | _ => .error .underflow

/-- `set-alien-unsigned-cell ( value c-ptr n -- )` and `set-alien-unsigned-1`. -/
def setAlienUnsigned (width : Nat) : Word := fun m =>
  match m.stack with
  | .int off :: .array ba :: .int x :: st =>
    match m.arrays[ba]? with
    | some bytes =>
      if 0 ≤ off ∧ off + width ≤ bytes.length then
        .ok { m with
          stack := st
          arrays := m.arrays.set ba (overwrite bytes off.toNat (bytesOf width x)) }
      else .error .bounds
    | none => .error .bounds
  | _ :: _ :: _ :: _ => .error .type
  | _ => .error .underflow

/-- `nf-addr+ ( addr n -- addr' )`. -/
def nfAddrPlus : Word := bind2 fun addr n => seq [
  push addr, baSlot, push addr, offSlot, push n, plus, newAddr]

def cellPlus : Word := seq [lit 8, nfAddrPlus]

/-- `@`. -/
def fetch : Word := seq [bi [baSlot] [offSlot], alienUnsigned 8]

/-- `nf-!`. -/
def nfStore : Word := seq [bi [baSlot] [offSlot], setAlienUnsigned 8]

/-- `c@`. -/
def cFetch : Word := seq [bi [baSlot] [offSlot], alienUnsigned 1]

/-- `nf-c!`. -/
def nfCStore : Word := seq [bi [baSlot] [offSlot], setAlienUnsigned 1]

/-- `nf-+!`. -/
def nfPlusStore : Word := bi [fetch, plus] [nfStore]

/-- `<iota> [| i | … ] each`. -/
def iotaEach (body : Int → Word) : Word := fun m =>
  match m.stack with
  | .int u :: st => eachIota body u.toNat 0 { m with stack := st }
  | _ :: _ => .error .type
  | [] => .error .underflow

def cmove : Word := bind3 fun src dst u => seq [
  push u, lit 0, lessEq, ifElse [] [
    push u, iotaEach fun i => seq [
      push src, lit i, nfAddrPlus, cFetch,
      push dst, lit i, nfAddrPlus, nfCStore]]]

def fill : Word := bind3 fun cAddr u char => seq [
  push u, lit 0, lessEq, ifElse [] [
    push char, bind1 fun ch => seq [
      push u, iotaEach fun i => seq [
        push ch, push cAddr, lit i, nfAddrPlus, nfCStore]]]]

/-- `ans2@`. -/
def ansTwoFetch : Word := bi [cellPlus, fetch] [fetch]

/-- `ans2!`. -/
def ansTwoStore : Word := seq [swap, over_, nfStore, cellPlus, nfStore]

def ansErase : Word := seq [lit 0, fill]

/-- What the targets of the memory words run. -/
def memoryWord : Target → Option Word
  | .qualifiedBuiltin "forth.runtime" "@" => some fetch
  | .qualifiedBuiltin "forth.runtime" "nf-!" => some nfStore
  | .qualifiedBuiltin "forth.runtime" "c@" => some cFetch
  | .qualifiedBuiltin "forth.runtime" "nf-c!" => some nfCStore
  | .qualifiedBuiltin "forth.runtime" "nf-+!" => some nfPlusStore
  | .qualifiedBuiltin "forth.runtime" "cmove" => some cmove
  | .qualifiedBuiltin "forth.runtime" "fill" => some fill
  | .qualifiedBuiltin "forth.runtime" "ans2@" => some ansTwoFetch
  | .qualifiedBuiltin "forth.runtime" "ans2!" => some ansTwoStore
  | .qualifiedBuiltin "forth.runtime" "ans-erase" => some ansErase
  | _ => none

/-! The bytes behind an address. -/

abbrev Arrays : Type := List (List UInt8)

namespace Arrays
variable {h : Arrays} {ba off : Nat} {new : List UInt8}

/-- The `n` bytes from an offset on are there. -/
def Fits (h : Arrays) (ba off n : Nat) : Prop := ∃ bytes, h[ba]? = some bytes ∧ off + n ≤ bytes.length

def byte (h : Arrays) (ba i : Nat) : Option UInt8 := h[ba]?.bind fun bytes => bytes[i]?

/-- The unsigned number in `width` bytes. -/
def value (h : Arrays) (width ba off : Nat) : Nat :=
  valueOf (((h[ba]?.getD []).drop off).take width)

def write (h : Arrays) (ba off : Nat) (new : List UInt8) : Arrays :=
  h.modify ba fun bytes => overwrite bytes off new

theorem getElem?_write (b : Nat) : (write h ba off new)[b]? =
    if b = ba then h[b]?.map fun bytes => overwrite bytes off new else h[b]? := by
  rw [write, List.getElem?_modify]
  by_cases hb : b = ba
  · subst hb
    simp
  · simp [hb, Ne.symm hb]

theorem byte_write (hfit : Fits h ba off new.length) (b i : Nat) : byte (write h ba off new) b i =
    if b = ba ∧ off ≤ i ∧ i < off + new.length then new[i - off]? else byte h b i := by
  obtain ⟨bytes, hbytes, hlength⟩ := hfit
  by_cases hb : b = ba
  · subst hb
    simp only [byte, getElem?_write, hbytes, if_true, Option.map_some, Option.bind_some,
      getElem?_overwrite hlength, true_and]
  · simp only [byte, getElem?_write, hb, if_false, false_and]

theorem Fits.write {b i n : Nat} (hfit : Fits h ba off new.length) (hother : Fits h b i n) :
    Fits (write h ba off new) b i n := by
  obtain ⟨bytes, hbytes, hlength⟩ := hother
  by_cases hb : b = ba
  · subst hb
    obtain ⟨bytes', hbytes', hfits⟩ := hfit
    obtain rfl := Option.some.inj (hbytes.symm.trans hbytes')
    refine ⟨overwrite bytes off new, ?_, (length_overwrite hfits).symm ▸ hlength⟩
    rw [getElem?_write, if_pos rfl, hbytes, Option.map_some]
  · exact ⟨bytes, by rw [getElem?_write, if_neg hb, hbytes], hlength⟩

@[simp] theorem write_nil (h : Arrays) (ba off : Nat) : write h ba off [] = h := by
  refine List.ext_getElem? fun b => ?_
  rw [getElem?_write]
  split
  · simp
  · rfl

/-- Bytes written right behind others. -/
theorem write_write {more : List UInt8} (hfit : Fits h ba off (new.length + more.length)) :
    write (write h ba off new) ba (off + new.length) more = write h ba off (new ++ more) := by
  obtain ⟨bytes, hbytes, hlength⟩ := hfit
  refine List.ext_getElem? fun b => ?_
  rw [getElem?_write, getElem?_write, getElem?_write]
  by_cases hb : b = ba
  · subst hb
    rw [if_pos rfl, if_pos rfl, if_pos rfl, hbytes, Option.map_some, Option.map_some,
      Option.map_some, overwrite_overwrite (by omega)]
  · rw [if_neg hb, if_neg hb, if_neg hb]

theorem Fits.mono {n n' : Nat} (hfit : Fits h ba off n) (hn : n' ≤ n) : Fits h ba off n' := by
  obtain ⟨bytes, hbytes, hlength⟩ := hfit
  exact ⟨bytes, hbytes, by omega⟩

theorem Fits.shift {n k k' : Nat} (hfit : Fits h ba off n) (hn : k + k' ≤ n) :
    Fits h ba (off + k) k' := by
  obtain ⟨bytes, hbytes, hlength⟩ := hfit
  exact ⟨bytes, hbytes, by omega⟩

theorem value_write_same (hfit : Fits h ba off new.length) :
    value (write h ba off new) new.length ba off = valueOf new := by
  obtain ⟨bytes, hbytes, hlength⟩ := hfit
  rw [value, getElem?_write, if_pos rfl, hbytes, Option.map_some, Option.getD_some,
    take_drop_overwrite hlength]

/-- A number does not change when no byte of it does. -/
theorem value_congr {h' : Arrays} {width : Nat}
    (hbytes : ∀ i, off ≤ i → i < off + width → byte h' ba i = byte h ba i) :
    value h' width ba off = value h width ba off := by
  rw [value, value]
  congr 1
  refine List.ext_getElem? fun i => ?_
  rw [List.getElem?_take, List.getElem?_take]
  split
  · rename_i hi
    have hbyte := hbytes (off + i) (Nat.le_add_right off i) (by omega)
    rw [List.getElem?_drop, List.getElem?_drop]
    unfold byte at hbyte
    cases hh : h[ba]? <;> cases hh' : h'[ba]? <;> simp_all
  · rfl

theorem value_byte {b : UInt8} (hbyte : byte h ba off = some b) : value h 1 ba off = b.toNat := by
  obtain ⟨bytes, hbytes, hb⟩ := Option.bind_eq_some_iff.mp hbyte
  obtain ⟨hlt, hget⟩ := List.getElem?_eq_some_iff.mp hb
  rw [value, hbytes, Option.getD_some, List.drop_eq_getElem_cons hlt, hget]
  simp [valueOf]

theorem Fits.byte {n i : Nat} (hfit : Fits h ba off n) (hi : i < n) :
    ∃ b, Arrays.byte h ba (off + i) = some b := by
  obtain ⟨bytes, hbytes, hlength⟩ := hfit
  have hlt : off + i < bytes.length := by omega
  exact ⟨bytes[off + i], by rw [Arrays.byte, hbytes, Option.bind_some, List.getElem?_eq_getElem hlt]⟩

theorem write_eq {bytes : List UInt8} (hbytes : h[ba]? = some bytes) :
    write h ba off new = h.set ba (overwrite bytes off new) := by
  refine List.ext_getElem? fun b => ?_
  rw [getElem?_write, List.getElem?_set]
  by_cases hb : b = ba
  · subst hb
    obtain ⟨hlt, hget⟩ := List.getElem?_eq_some_iff.mp hbytes
    simp [hlt, hget]
  · simp [hb, Ne.symm hb]

end Arrays

/-! The words on a machine whose stack is known. -/

section Runs
open Arrays
variable (st : List Item) (base : Int) (buf : Option (List Int)) {h : Arrays} {ba off : Nat}

@[simp] theorem baSlot_run (h : Arrays) (ba : Nat) (off : Int) :
    baSlot ⟨.addr ba off :: st, h, base, buf⟩ = .ok ⟨.array ba :: st, h, base, buf⟩ := rfl

@[simp] theorem offSlot_run (h : Arrays) (ba : Nat) (off : Int) :
    offSlot ⟨.addr ba off :: st, h, base, buf⟩ = .ok ⟨.int off :: st, h, base, buf⟩ := rfl

@[simp] theorem nfAddrPlus_run (h : Arrays) (ba off n : Nat) :
    nfAddrPlus ⟨.int n :: .addr ba off :: st, h, base, buf⟩ =
      .ok ⟨.addr ba (off + n : Nat) :: st, h, base, buf⟩ := by
  simp [nfAddrPlus]

@[simp] theorem cellPlus_run (h : Arrays) (ba off : Nat) :
    cellPlus ⟨.addr ba off :: st, h, base, buf⟩ =
      .ok ⟨.addr ba (off + 8 : Nat) :: st, h, base, buf⟩ := by
  rw [cellPlus, seq_cons, lit_run, ok_bind, seq_cons, bind_seq_nil]
  exact nfAddrPlus_run st base buf h ba off 8

theorem alienUnsigned_run {width : Nat} (hfit : Fits h ba off width) :
    alienUnsigned width ⟨.int off :: .array ba :: st, h, base, buf⟩ =
      .ok ⟨.int (value h width ba off) :: st, h, base, buf⟩ := by
  obtain ⟨bytes, hbytes, hlength⟩ := hfit
  have hin : (0 : Int) ≤ off ∧ (off : Int) + width ≤ bytes.length := by omega
  simp only [alienUnsigned, hbytes, if_pos hin, Int.toNat_natCast, value, Option.getD_some]

theorem setAlienUnsigned_run {width : Nat} (x : Int) (hfit : Fits h ba off width) :
    setAlienUnsigned width ⟨.int off :: .array ba :: .int x :: st, h, base, buf⟩ =
      .ok ⟨st, write h ba off (bytesOf width x), base, buf⟩ := by
  obtain ⟨bytes, hbytes, hlength⟩ := hfit
  have hin : (0 : Int) ≤ off ∧ (off : Int) + width ≤ bytes.length := by omega
  simp only [setAlienUnsigned, hbytes, if_pos hin, Int.toNat_natCast, write_eq hbytes]

theorem fetch_run (hfit : Fits h ba off 8) : fetch ⟨.addr ba off :: st, h, base, buf⟩ =
    .ok ⟨.int (value h 8 ba off) :: st, h, base, buf⟩ := by
  simp [fetch, alienUnsigned_run st base buf hfit]

theorem cFetch_run (hfit : Fits h ba off 1) : cFetch ⟨.addr ba off :: st, h, base, buf⟩ =
    .ok ⟨.int (value h 1 ba off) :: st, h, base, buf⟩ := by
  simp [cFetch, alienUnsigned_run st base buf hfit]

theorem nfStore_run (x : Int) (hfit : Fits h ba off 8) :
    nfStore ⟨.addr ba off :: .int x :: st, h, base, buf⟩ =
      .ok ⟨st, write h ba off (bytesOf 8 x), base, buf⟩ := by
  simp [nfStore, setAlienUnsigned_run st base buf x hfit]

theorem nfCStore_run (x : Int) (hfit : Fits h ba off 1) :
    nfCStore ⟨.addr ba off :: .int x :: st, h, base, buf⟩ =
      .ok ⟨st, write h ba off (bytesOf 1 x), base, buf⟩ := by
  simp [nfCStore, setAlienUnsigned_run st base buf x hfit]

theorem nfPlusStore_run (n : Int) (hfit : Fits h ba off 8) :
    nfPlusStore ⟨.addr ba off :: .int n :: st, h, base, buf⟩ =
      .ok ⟨st, write h ba off (bytesOf 8 (n + value h 8 ba off)), base, buf⟩ := by
  simp [nfPlusStore, fetch_run _ base buf hfit, nfStore_run st base buf _ hfit]

theorem ansTwoFetch_run (hfit : Fits h ba off 8) (hnext : Fits h ba (off + 8) 8) :
    ansTwoFetch ⟨.addr ba off :: st, h, base, buf⟩ =
      .ok ⟨.int (value h 8 ba off) :: .int (value h 8 ba (off + 8)) :: st, h, base, buf⟩ := by
  simp only [ansTwoFetch, bi_run, seq_cons, cellPlus_run, ok_bind,
    fetch_run _ base buf hnext, push_run, fetch_run _ base buf hfit, seq_nil]

theorem ansTwoStore_run (x₁ x₂ : Int) (hfit : Fits h ba off 8) (hnext : Fits h ba (off + 8) 8) :
    ansTwoStore ⟨.addr ba off :: .int x₂ :: .int x₁ :: st, h, base, buf⟩ =
      .ok ⟨st, write (write h ba off (bytesOf 8 x₂)) ba (off + 8) (bytesOf 8 x₁), base, buf⟩ := by
  have hlength : Fits h ba off (bytesOf 8 x₂).length := by rwa [length_bytesOf]
  simp only [ansTwoStore, seq_cons, swap_run, over_run, ok_bind, nfStore_run _ base buf x₂ hfit,
    cellPlus_run, nfStore_run st base buf x₁ (hlength.write hnext), seq_nil]

/-- The low byte of a character. -/
def lowByte (ch : Int) : UInt8 := UInt8.ofNat (ch % 256).toNat

/-- A loop whose passes each write one byte behind those of the passes before. -/
theorem iotaEach_run {body : Int → Word} (news : Nat → UInt8) (u : Int)
    (hfit : Fits h ba off u.toNat)
    (hbody : ∀ k < u.toNat, body k ⟨st, write h ba off ((List.range k).map news), base, buf⟩ =
      .ok ⟨st, write (write h ba off ((List.range k).map news)) ba (off + k) [news k], base, buf⟩) :
    iotaEach body ⟨.int u :: st, h, base, buf⟩ =
      .ok ⟨st, write h ba off ((List.range u.toNat).map news), base, buf⟩ := by
  let inv (k : Nat) : Machine := ⟨st, write h ba off ((List.range k).map news), base, buf⟩
  have hstep : ∀ k, 0 ≤ k → k < 0 + u.toNat → body k (inv k) = .ok (inv (k + 1)) := by
    intro k _ hk
    rw [Nat.zero_add] at hk
    have hlength : ((List.range k).map news).length = k := by
      rw [List.length_map, List.length_range]
    have hfit' : Fits h ba off (((List.range k).map news).length + [news k].length) := by
      rw [hlength]
      exact hfit.mono hk
    have hwrite := write_write hfit'
    rw [hlength] at hwrite
    rw [hbody k hk, hwrite]
    simp only [inv, List.range_succ, List.map_append, List.map_cons, List.map_nil]
  have hloop := eachIota_run u.toNat 0 hstep
  simp only [inv, List.range_zero, List.map_nil, write_nil, Nat.zero_add] at hloop
  exact hloop

theorem fits_written {news : Nat → UInt8} {k n : Nat} (hfit : Fits h ba off n) (hk : k ≤ n)
    {b i width : Nat} (hother : Fits h b i width) :
    Fits (write h ba off ((List.range k).map news)) b i width := by
  refine Fits.write ?_ hother
  rw [List.length_map, List.length_range]
  exact hfit.mono hk

theorem fill_run (u ch : Int) (hfit : Fits h ba off u.toNat) :
    fill ⟨.int ch :: .int u :: .addr ba off :: st, h, base, buf⟩ =
      .ok ⟨st, write h ba off ((List.range u.toNat).map fun _ => lowByte ch), base, buf⟩ := by
  simp only [fill, bind3_run, seq_cons, push_run, lit_run, lessEq_run, ok_bind, ifElse_run]
  split
  · rename_i hu
    rw [Int.toNat_of_nonpos (of_decide_eq_true hu), List.range_zero, List.map_nil, write_nil]
    rfl
  · simp only [seq_cons, push_run, ok_bind, bind1_run, bind_seq_nil]
    refine iotaEach_run st base buf (fun _ => lowByte ch) u hfit fun k hk => ?_
    have hbyte : Fits (write h ba off ((List.range k).map fun _ => lowByte ch)) ba (off + k) 1 :=
      fits_written hfit hk.le (hfit.shift hk)
    simp only [seq_cons, push_run, lit_run, nfAddrPlus_run, nfCStore_run st base buf ch hbyte,
      ok_bind, seq_nil]
    rfl

/-- Which byte of the source a forward copy moves to place `i` of the target: where the target
begins inside the source, the bytes before it repeat. -/
def copied (sba soff dba doff i : Nat) : Nat :=
  soff + if sba = dba ∧ soff < doff then i % (doff - soff) else i

/-- The byte that a forward copy leaves at place `i` of the target. -/
def moved (h : Arrays) (sba soff dba doff i : Nat) : UInt8 :=
  (byte h sba (copied sba soff dba doff i)).getD 0

/-- The byte that the copy reads next, which it may have written before. -/
theorem byte_moved {sba soff dba doff k n : Nat} (hsource : Fits h sba soff n)
    (htarget : Fits h dba doff n) (hk : k < n) :
    byte (write h dba doff ((List.range k).map (moved h sba soff dba doff))) sba (soff + k) =
      some (moved h sba soff dba doff k) := by
  have hlength : ((List.range k).map (moved h sba soff dba doff)).length = k := by
    rw [List.length_map, List.length_range]
  have hfit : Fits h dba doff ((List.range k).map (moved h sba soff dba doff)).length := by
    rw [hlength]
    exact htarget.mono hk.le
  rw [byte_write hfit, hlength]
  by_cases hwritten : sba = dba ∧ doff ≤ soff + k ∧ soff + k < doff + k
  · have hplace : soff + k - doff < k := by omega
    have hlag : (soff + k - doff) % (doff - soff) = k % (doff - soff) := by
      rw [Nat.mod_eq_sub_mod (by omega : doff - soff ≤ k)]
      congr 1
      omega
    rw [if_pos hwritten, List.getElem?_map, List.getElem?_range hplace, Option.map_some, moved,
      moved, copied, copied, if_pos ⟨hwritten.1, by omega⟩, if_pos ⟨hwritten.1, by omega⟩, hlag]
  · obtain ⟨b, hb⟩ := hsource.byte hk
    have hplace : copied sba soff dba doff k = soff + k := by
      unfold copied
      split
      · rw [Nat.mod_eq_of_lt (by omega)]
      · rfl
    rw [if_neg hwritten, moved, hplace, hb, Option.getD_some]

theorem cmove_run (u : Int) {sba soff dba doff : Nat} (hsource : Fits h sba soff u.toNat)
    (htarget : Fits h dba doff u.toNat) :
    cmove ⟨.int u :: .addr dba doff :: .addr sba soff :: st, h, base, buf⟩ =
      .ok ⟨st, write h dba doff ((List.range u.toNat).map (moved h sba soff dba doff)), base, buf⟩ := by
  simp only [cmove, bind3_run, seq_cons, push_run, lit_run, lessEq_run, ok_bind, ifElse_run]
  split
  · rename_i hu
    rw [Int.toNat_of_nonpos (of_decide_eq_true hu), List.range_zero, List.map_nil, write_nil]
    rfl
  · rw [bind_seq_nil, bind_seq_nil]
    refine iotaEach_run st base buf (moved h sba soff dba doff) u htarget fun k hk => ?_
    have hread : Fits (write h dba doff ((List.range k).map (moved h sba soff dba doff))) sba
        (soff + k) 1 := fits_written htarget hk.le (hsource.shift hk)
    have hwrite : Fits (write h dba doff ((List.range k).map (moved h sba soff dba doff))) dba
        (doff + k) 1 := fits_written htarget hk.le (htarget.shift hk)
    have hvalue := value_byte (byte_moved hsource htarget hk)
    simp only [seq_cons, push_run, lit_run, nfAddrPlus_run, cFetch_run _ base buf hread, hvalue,
      nfCStore_run st base buf _ hwrite, ok_bind, seq_nil, bytesOf_byte]

end Runs

end FactorForth.Cells
