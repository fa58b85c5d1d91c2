import FactorForth.Cells.Memory

/-! The laws of ANS Forth for cell memory: what comes back from memory, and that nothing but the bytes
an operation names changes. -/

namespace FactorForth.Cells
open FactorForth.Compiler FactorForth.Library Arrays

/-- The word that the compiler binds a memory word of ANS Forth to. -/
def ans (name : String) : Word :=
  ((builtinTable.lookup name).bind memoryWord).getD fun _ => .error .type

section Bound

@[simp] theorem ans_fetch : ans "@" = fetch := rfl
@[simp] theorem ans_store : ans "!" = nfStore := rfl
@[simp] theorem ans_cFetch : ans "c@" = cFetch := rfl
@[simp] theorem ans_cStore : ans "c!" = nfCStore := rfl
@[simp] theorem ans_plusStore : ans "+!" = nfPlusStore := rfl
@[simp] theorem ans_twoFetch : ans "2@" = ansTwoFetch := rfl
@[simp] theorem ans_twoStore : ans "2!" = ansTwoStore := rfl
@[simp] theorem ans_fill : ans "fill" = fill := rfl
@[simp] theorem ans_erase : ans "erase" = ansErase := rfl
@[simp] theorem ans_cmove : ans "cmove" = cmove := rfl

end Bound

/-- The word leaves `vs` on the stack, the last one on top. -/
def Word.Gives (w : Word) (m : Machine) (vs : List Int) : Prop :=
  ∃ m', w m = .ok m' ∧ m'.stack = vs.reverse.map .int ++ m.stack

/-- The signed reading of a 64-bit cell. -/
def signed (n : Int) : Int := Int.bmod n (2 ^ 64)

def IsCell (x : Int) : Prop := -2 ^ 63 ≤ x ∧ x < 2 ^ 63

section Laws
variable (m : Machine) (ba off : Nat)

/-- After `x addr !`, `addr @` gives `x`. -/
def StoreLaw (x : Int) : Prop :=
  (seq [lit x, push (.addr ba off), ans "!", push (.addr ba off), ans "@"]).Gives m [x]

/-- After `n addr +!`, `addr @` gives the sum. -/
def PlusStoreLaw (n : Int) : Prop :=
  (seq [lit n, push (.addr ba off), ans "+!", push (.addr ba off), ans "@"]).Gives m
    [signed (signed (Arrays.value m.arrays 8 ba off) + n)]

/-- After `x₁ x₂ addr 2!`, `addr 2@` gives `x₁ x₂`. -/
def TwoStoreLaw (x₁ x₂ : Int) : Prop :=
  (seq [lit x₁, lit x₂, push (.addr ba off), ans "2!", push (.addr ba off), ans "2@"]).Gives m
    [x₁, x₂]

/-- After `ch addr C!`, `addr C@` gives the low byte. -/
def CStoreLaw (ch : Int) : Prop :=
  (seq [lit ch, push (.addr ba off), ans "c!", push (.addr ba off), ans "c@"]).Gives m [ch % 256]

end Laws

/-! Operations on memory and the bytes they may change. -/

inductive MemOp where
  | fetch (ba off : Nat)
  | store (x : Int) (ba off : Nat)
  | cFetch (ba off : Nat)
  | cStore (ch : Int) (ba off : Nat)
  | plusStore (n : Int) (ba off : Nat)
  | twoFetch (ba off : Nat)
  | twoStore (x₁ x₂ : Int) (ba off : Nat)
  | fill (ba off : Nat) (u ch : Int)
  | erase (ba off : Nat) (u : Int)
  | cmove (sba soff dba doff : Nat) (u : Int)

namespace MemOp

/-- The arguments and the word. -/
def word : MemOp → Word
  | .fetch ba off => seq [push (.addr ba off), ans "@"]
  | .store x ba off => seq [lit x, push (.addr ba off), ans "!"]
  | .cFetch ba off => seq [push (.addr ba off), ans "c@"]
  | .cStore ch ba off => seq [lit ch, push (.addr ba off), ans "c!"]
  | .plusStore n ba off => seq [lit n, push (.addr ba off), ans "+!"]
  | .twoFetch ba off => seq [push (.addr ba off), ans "2@"]
  | .twoStore x₁ x₂ ba off => seq [lit x₁, lit x₂, push (.addr ba off), ans "2!"]
  | .fill ba off u ch => seq [push (.addr ba off), lit u, lit ch, ans "fill"]
  | .erase ba off u => seq [push (.addr ba off), lit u, ans "erase"]
  | .cmove sba soff dba doff u =>
    seq [push (.addr sba soff), push (.addr dba doff), lit u, ans "cmove"]

/-- The bytes that the operation sets: an array, an offset and a length. -/
def target : MemOp → Nat × Nat × Nat
  | .fetch ba off => (ba, off, 0)
  | .store _ ba off => (ba, off, 8)
  | .cFetch ba off => (ba, off, 0)
  | .cStore _ ba off => (ba, off, 1)
  | .plusStore _ ba off => (ba, off, 8)
  | .twoFetch ba off => (ba, off, 0)
  | .twoStore _ _ ba off => (ba, off, 16)
  | .fill ba off u _ => (ba, off, u.toNat)
  | .erase ba off u => (ba, off, u.toNat)
  | .cmove _ _ dba doff u => (dba, doff, u.toNat)

/-- Is the byte one of them? -/
def Touches (op : MemOp) (ba i : Nat) : Prop :=
  ba = op.target.1 ∧ op.target.2.1 ≤ i ∧ i < op.target.2.1 + op.target.2.2

instance (op : MemOp) (ba i : Nat) : Decidable (op.Touches ba i) :=
  inferInstanceAs (Decidable (_ ∧ _))

/-- The addresses are in range. -/
def InRange (h : Arrays) : MemOp → Prop
  | .fetch ba off => h.Fits ba off 8
  | .cFetch ba off => h.Fits ba off 1
  | .twoFetch ba off => h.Fits ba off 16
  | .cmove sba soff dba doff u => h.Fits sba soff u.toNat ∧ h.Fits dba doff u.toNat
  | op => h.Fits op.target.1 op.target.2.1 op.target.2.2

/-- The bytes that the operation leaves in its target. -/
def news (h : Arrays) : MemOp → List UInt8
  | .fetch _ _ => []
  | .store x _ _ => bytesOf 8 x
  | .cFetch _ _ => []
  | .cStore ch _ _ => bytesOf 1 ch
  | .plusStore n ba off => bytesOf 8 (n + h.value 8 ba off)
  | .twoFetch _ _ => []
  | .twoStore x₁ x₂ _ _ => bytesOf 8 x₂ ++ bytesOf 8 x₁
  | .fill _ _ u ch => (List.range u.toNat).map fun _ => lowByte ch
  | .erase _ _ u => (List.range u.toNat).map fun _ => lowByte 0
  | .cmove sba soff dba doff u => (List.range u.toNat).map (moved h sba soff dba doff)

/-- What the operation leaves on the stack. -/
def left (h : Arrays) : MemOp → List Item
  | .fetch ba off => [.int (h.value 8 ba off)]
  | .cFetch ba off => [.int (h.value 1 ba off)]
  | .twoFetch ba off => [.int (h.value 8 ba off), .int (h.value 8 ba (off + 8))]
  | _ => []

theorem length_news (h : Arrays) (op : MemOp) : (op.news h).length = op.target.2.2 := by
  cases op <;> simp [news, target]

/-- What one operation does: it writes its bytes over its target. -/
theorem word_run (op : MemOp) (m : Machine) (hrange : op.InRange m.arrays) : op.word m = .ok
    ⟨op.left m.arrays ++ m.stack,
      Arrays.write m.arrays op.target.1 op.target.2.1 (op.news m.arrays), m.numberBase,
      m.currentNumBuf⟩ := by
  obtain ⟨st, h, base, buf⟩ := m
  cases op with
  | fetch ba off =>
    simp only [word, target, news, left, write_nil, ans_fetch, seq_cons, push_run, ok_bind,
      fetch_run st base buf hrange, seq_nil, List.singleton_append]
  | store x ba off =>
    have hfit : Fits h ba off 8 := hrange
    simp only [word, target, news, left, ans_store, seq_cons, lit_run, push_run, ok_bind,
      nfStore_run st base buf x hfit, seq_nil, List.nil_append]
  | cFetch ba off =>
    simp only [word, target, news, left, write_nil, ans_cFetch, seq_cons, push_run, ok_bind,
      cFetch_run st base buf hrange, seq_nil, List.singleton_append]
  | cStore ch ba off =>
    have hfit : Fits h ba off 1 := hrange
    simp only [word, target, news, left, ans_cStore, seq_cons, lit_run, push_run, ok_bind,
      nfCStore_run st base buf ch hfit, seq_nil, List.nil_append]
  | plusStore n ba off =>
    have hfit : Fits h ba off 8 := hrange
    simp only [word, target, news, left, ans_plusStore, seq_cons, lit_run, push_run, ok_bind,
      nfPlusStore_run st base buf n hfit, seq_nil, List.nil_append]
  | twoFetch ba off =>
    have hfirst : Fits h ba off 8 := hrange.mono (by decide)
    have hnext : Fits h ba (off + 8) 8 := hrange.shift (by decide)
    simp only [word, target, news, left, write_nil, ans_twoFetch, seq_cons, push_run, ok_bind,
      ansTwoFetch_run st base buf hfirst hnext, seq_nil, List.cons_append, List.nil_append]
  | twoStore x₁ x₂ ba off =>
    have hfit : Fits h ba off (8 + 8) := hrange
    have hfirst : Fits h ba off 8 := hfit.mono (by decide)
    have hnext : Fits h ba (off + 8) 8 := hfit.shift (by decide)
    have hboth : write (write h ba off (bytesOf 8 x₂)) ba (off + 8) (bytesOf 8 x₁) =
        write h ba off (bytesOf 8 x₂ ++ bytesOf 8 x₁) := by
      have hwrite := @write_write h ba off (bytesOf 8 x₂) (bytesOf 8 x₁)
      rw [length_bytesOf, length_bytesOf] at hwrite
      exact hwrite hfit
    simp only [word, target, news, left, ans_twoStore, seq_cons, lit_run, push_run, ok_bind,
      ansTwoStore_run st base buf x₁ x₂ hfirst hnext, seq_nil, List.nil_append, hboth]
  | fill ba off u ch =>
    have hfit : Fits h ba off u.toNat := hrange
    simp only [word, target, news, left, ans_fill, seq_cons, lit_run, push_run, ok_bind,
      fill_run st base buf u ch hfit, seq_nil, List.nil_append]
  | erase ba off u =>
    have hfit : Fits h ba off u.toNat := hrange
    simp only [word, target, news, left, ans_erase, ansErase, seq_cons, lit_run, push_run, ok_bind,
      fill_run st base buf u 0 hfit, seq_nil, List.nil_append]
  | cmove sba soff dba doff u =>
    simp only [word, target, news, left, ans_cmove, seq_cons, lit_run, push_run, ok_bind,
      cmove_run st base buf u hrange.1 hrange.2, seq_nil, List.nil_append]

/-- The target is in range with its whole length. -/
theorem InRange.target {op : MemOp} {h : Arrays} (hrange : op.InRange h) :
    h.Fits op.target.1 op.target.2.1 (op.news h).length := by
  rw [length_news]
  cases op with
  | fetch | cFetch | twoFetch => exact Fits.mono hrange (Nat.zero_le _)
  | cmove => exact hrange.2
  | _ => exact hrange

theorem InRange.write {op op' : MemOp} {h : Arrays} (hrange : op.InRange h)
    (hrange' : op'.InRange h) :
    op'.InRange (Arrays.write h op.target.1 op.target.2.1 (op.news h)) := by
  cases op' with
  | cmove => exact ⟨hrange.target.write hrange'.1, hrange.target.write hrange'.2⟩
  | _ => exact hrange.target.write hrange'

/-- The operation sets the bytes of its target to `f`, leaves the stack and changes no other byte. -/
def Sets (op : MemOp) (m : Machine) (f : Nat → Option UInt8) : Prop :=
  ∃ m', op.word m = .ok m' ∧ m'.stack = m.stack ∧ ∀ ba i, byte m'.arrays ba i =
    if op.Touches ba i then f (i - op.target.2.1) else byte m.arrays ba i

theorem byte_news {op : MemOp} {h : Arrays} (hrange : op.InRange h) (ba i : Nat) :
    byte (Arrays.write h op.target.1 op.target.2.1 (op.news h)) ba i =
      if op.Touches ba i then (op.news h)[i - op.target.2.1]? else byte h ba i := by
  rw [byte_write hrange.target, length_news]
  rfl

theorem sets_news {op : MemOp} {m : Machine} (hrange : op.InRange m.arrays)
    (hleft : op.left m.arrays = []) : op.Sets m fun i => (op.news m.arrays)[i]? := by
  refine ⟨_, op.word_run m hrange, ?_, byte_news hrange⟩
  rw [hleft, List.nil_append]

theorem Sets.congr {op : MemOp} {m : Machine} {f g : Nat → Option UInt8} (hsets : op.Sets m f)
    (hfg : ∀ i < op.target.2.2, f i = g i) : op.Sets m g := by
  obtain ⟨m', hrun, hstack, hbytes⟩ := hsets
  refine ⟨m', hrun, hstack, fun ba i => ?_⟩
  rw [hbytes ba i]
  split
  · rename_i htouches
    obtain ⟨-, hlow, hhigh⟩ := htouches
    exact hfg _ (by omega)
  · rfl

/-- Operations in range all run, and a byte that none of them names is as it was. -/
theorem frame (ops : List MemOp) (m : Machine) (hrange : ∀ op ∈ ops, op.InRange m.arrays) :
    ∃ m', seq (ops.map word) m = .ok m' ∧ ∀ ba i, (∀ op ∈ ops, ¬ op.Touches ba i) →
      byte m'.arrays ba i = byte m.arrays ba i := by
  induction ops generalizing m with
  | nil => exact ⟨m, rfl, fun _ _ _ => rfl⟩
  | cons op ops ih =>
    obtain ⟨hhead, htail⟩ := List.forall_mem_cons.mp hrange
    obtain ⟨m', hrest, hframe⟩ := ih ⟨op.left m.arrays ++ m.stack,
      Arrays.write m.arrays op.target.1 op.target.2.1 (op.news m.arrays), m.numberBase,
      m.currentNumBuf⟩ fun op' hmem => hhead.write (htail op' hmem)
    refine ⟨m', ?_, fun ba i huntouched => ?_⟩
    · rw [List.map_cons, seq_cons, op.word_run m hhead, ok_bind, hrest]
    · obtain ⟨hop, hops⟩ := List.forall_mem_cons.mp huntouched
      rw [hframe ba i hops, byte_news hhead, if_neg hop]

end MemOp

/-! The laws. -/

section Laws
variable (m : Machine) (ba off : Nat)

theorem gives_iff {w : Word} {vs ws : List Int} {h : Arrays}
    (hrun : w m = .ok ⟨ws.reverse.map .int ++ m.stack, h, m.numberBase, m.currentNumBuf⟩) :
    w.Gives m vs ↔ vs = ws := by
  constructor
  · rintro ⟨m', hm', hstack⟩
    obtain rfl := Except.ok.inj (hrun.symm.trans hm')
    have hmap := List.append_cancel_right hstack
    have hrev := (List.map_injective_iff.mpr fun _ _ hint => Item.int.inj hint) hmap
    exact (List.reverse_injective hrev).symm
  · rintro rfl
    exact ⟨_, hrun, rfl⟩

theorem value_stored (h : Arrays) (x : Int) (hfit : Fits h ba off 8) :
    (value (write h ba off (bytesOf 8 x)) 8 ba off : Int) = x % 2 ^ 64 := by
  have hlength : (bytesOf 8 x).length = 8 := length_bytesOf 8 x
  have hvalue := value_write_same (hlength.symm ▸ hfit)
  rw [hlength] at hvalue
  rw [hvalue, valueOf_bytesOf]
  rfl

theorem store_run (x : Int) (hfit : Fits m.arrays ba off 8) :
    seq [lit x, push (.addr ba off), ans "!", push (.addr ba off), ans "@"] m =
      .ok ⟨.int (x % 2 ^ 64) :: m.stack, write m.arrays ba off (bytesOf 8 x), m.numberBase,
        m.currentNumBuf⟩ := by
  obtain ⟨st, h, base, buf⟩ := m
  have hlength : Fits h ba off (bytesOf 8 x).length := by rwa [length_bytesOf]
  simp only [ans_store, ans_fetch, seq_cons, lit_run, push_run, ok_bind,
    nfStore_run st base buf x hfit, fetch_run st base buf (hlength.write hfit),
    value_stored ba off h x hfit, seq_nil]

theorem storeLaw_iff {x : Int} (hfit : Fits m.arrays ba off 8) (hx : IsCell x) :
    StoreLaw m ba off x ↔ 0 ≤ x := by
  obtain ⟨hlow, hhigh⟩ := hx
  rw [StoreLaw, @gives_iff m _ [x] [x % 2 ^ 64] _ (store_run m ba off x hfit), List.singleton_inj]
  omega

theorem plusStore_run (n : Int) (hfit : Fits m.arrays ba off 8) :
    seq [lit n, push (.addr ba off), ans "+!", push (.addr ba off), ans "@"] m =
      .ok ⟨.int ((n + value m.arrays 8 ba off) % 2 ^ 64) :: m.stack,
        write m.arrays ba off (bytesOf 8 (n + value m.arrays 8 ba off)), m.numberBase,
        m.currentNumBuf⟩ := by
  obtain ⟨st, h, base, buf⟩ := m
  have hlength : Fits h ba off (bytesOf 8 (n + value h 8 ba off)).length := by rwa [length_bytesOf]
  simp only [ans_plusStore, ans_fetch, seq_cons, lit_run, push_run, ok_bind,
    nfPlusStore_run st base buf n hfit, fetch_run st base buf (hlength.write hfit),
    value_stored ba off h _ hfit, seq_nil]

theorem plusStoreLaw_iff (n : Int) (hfit : Fits m.arrays ba off 8) :
    PlusStoreLaw m ba off n ↔ 0 ≤ signed (signed (value m.arrays 8 ba off) + n) := by
  have hsum : signed (signed (value m.arrays 8 ba off) + n) =
      signed (n + value m.arrays 8 ba off) := by
    rw [signed, signed, signed, Int.bmod_add_bmod, Int.add_comm]
  rw [PlusStoreLaw, @gives_iff m _ _ [(n + value m.arrays 8 ba off) % 2 ^ 64] _
    (plusStore_run m ba off n hfit), List.singleton_inj, hsum, signed, Int.bmod_def]
  generalize n + (value m.arrays 8 ba off : Int) = sum
  split <;> omega

theorem twoStore_run (x₁ x₂ : Int) (hfit : Fits m.arrays ba off 16) :
    ∃ h, seq [lit x₁, lit x₂, push (.addr ba off), ans "2!", push (.addr ba off), ans "2@"] m =
      .ok ⟨.int (x₂ % 2 ^ 64) :: .int (x₁ % 2 ^ 64) :: m.stack, h, m.numberBase,
        m.currentNumBuf⟩ := by
  obtain ⟨st, h, base, buf⟩ := m
  have hfit' : Fits h ba off (8 + 8) := hfit
  have hfirst : Fits h ba off 8 := hfit'.mono (by decide)
  have hnext : Fits h ba (off + 8) 8 := hfit'.shift (by decide)
  have hlow : Fits h ba off (bytesOf 8 x₂).length := by rwa [length_bytesOf]
  have hhigh : Fits (write h ba off (bytesOf 8 x₂)) ba (off + 8) (bytesOf 8 x₁).length := by
    rw [length_bytesOf]
    exact hlow.write hnext
  have hkept : value (write (write h ba off (bytesOf 8 x₂)) ba (off + 8) (bytesOf 8 x₁)) 8 ba off =
      value (write h ba off (bytesOf 8 x₂)) 8 ba off := by
    refine value_congr fun i _ hi => ?_
    rw [byte_write hhigh, if_neg (by omega)]
  refine ⟨write (write h ba off (bytesOf 8 x₂)) ba (off + 8) (bytesOf 8 x₁), ?_⟩
  simp only [ans_twoStore, ans_twoFetch, seq_cons, lit_run, push_run, ok_bind,
    ansTwoStore_run st base buf x₁ x₂ hfirst hnext,
    ansTwoFetch_run st base buf (hhigh.write (hlow.write hfirst)) (hhigh.write (hlow.write hnext)),
    hkept, value_stored ba off h x₂ hfirst, value_stored ba (off + 8) _ x₁ (hlow.write hnext),
    seq_nil]

theorem twoStoreLaw_iff {x₁ x₂ : Int} (hfit : Fits m.arrays ba off 16) (hx₁ : IsCell x₁)
    (hx₂ : IsCell x₂) : TwoStoreLaw m ba off x₁ x₂ ↔ 0 ≤ x₁ ∧ 0 ≤ x₂ := by
  obtain ⟨hlow₁, hhigh₁⟩ := hx₁
  obtain ⟨hlow₂, hhigh₂⟩ := hx₂
  obtain ⟨h, hrun⟩ := twoStore_run m ba off x₁ x₂ hfit
  rw [TwoStoreLaw, @gives_iff m _ _ [x₁ % 2 ^ 64, x₂ % 2 ^ 64] h hrun, List.cons.injEq,
    List.singleton_inj]
  omega

theorem cStoreLaw (ch : Int) (hfit : Fits m.arrays ba off 1) : CStoreLaw m ba off ch := by
  obtain ⟨st, h, base, buf⟩ := m
  have hlength : (bytesOf 1 ch).length = 1 := length_bytesOf 1 ch
  have hvalue := value_write_same (hlength.symm ▸ hfit)
  rw [hlength] at hvalue
  have hbyte : (value (write h ba off (bytesOf 1 ch)) 1 ba off : Int) = ch % 256 := by
    rw [hvalue, valueOf_bytesOf, pow_one]
  refine ⟨⟨.int (ch % 256) :: st, write h ba off (bytesOf 1 ch), base, buf⟩, ?_, rfl⟩
  have hfit' : Fits h ba off (bytesOf 1 ch).length := by rwa [hlength]
  simp only [ans_cStore, ans_cFetch, seq_cons, lit_run, push_run, ok_bind,
    nfCStore_run st base buf ch hfit, cFetch_run st base buf (hfit'.write hfit), hbyte, seq_nil]

theorem fill_sets (u ch : Int) (hfit : Fits m.arrays ba off u.toNat) :
    (MemOp.fill ba off u ch).Sets m fun _ => some (lowByte ch) := by
  have hrange : (MemOp.fill ba off u ch).InRange m.arrays := hfit
  refine (MemOp.sets_news hrange rfl).congr fun i hi => ?_
  have hplace : i < u.toNat := hi
  rw [MemOp.news, List.getElem?_map, List.getElem?_range hplace, Option.map_some]

theorem cmove_sets {sba soff dba doff : Nat} (u : Int) (hsource : Fits m.arrays sba soff u.toNat)
    (htarget : Fits m.arrays dba doff u.toNat) : (MemOp.cmove sba soff dba doff u).Sets m
      fun i => byte m.arrays sba (copied sba soff dba doff i) := by
  have hrange : (MemOp.cmove sba soff dba doff u).InRange m.arrays := ⟨hsource, htarget⟩
  refine (MemOp.sets_news hrange rfl).congr fun i hi => ?_
  have hi' : i < u.toNat := hi
  obtain ⟨j, hj, hplace⟩ : ∃ j < u.toNat, copied sba soff dba doff i = soff + j := by
    unfold copied
    split
    · exact ⟨_, Nat.lt_of_le_of_lt (Nat.mod_le i _) hi', rfl⟩
    · exact ⟨i, hi', rfl⟩
  obtain ⟨b, hb⟩ := hsource.byte hj
  rw [MemOp.news, List.getElem?_map, List.getElem?_range hi', Option.map_some, moved, hplace, hb,
    Option.getD_some]

end Laws

/-- What `@` gives back is what was stored where that is not negative; the other laws hold as they are. -/
theorem cell_memory (m : Machine) :
    (∀ ba off x, Fits m.arrays ba off 8 → IsCell x → (StoreLaw m ba off x ↔ 0 ≤ x)) ∧
    (∀ ba off n, Fits m.arrays ba off 8 → (PlusStoreLaw m ba off n ↔
      0 ≤ signed (signed (value m.arrays 8 ba off) + n))) ∧
    (∀ ba off x₁ x₂, Fits m.arrays ba off 16 → IsCell x₁ → IsCell x₂ →
      (TwoStoreLaw m ba off x₁ x₂ ↔ 0 ≤ x₁ ∧ 0 ≤ x₂)) ∧
    (∀ ba off ch, Fits m.arrays ba off 1 → CStoreLaw m ba off ch) ∧
    (∀ ba off u ch, Fits m.arrays ba off u.toNat →
      (MemOp.fill ba off u ch).Sets m fun _ => some (lowByte ch)) ∧
    (∀ sba soff dba doff u, Fits m.arrays sba soff u.toNat → Fits m.arrays dba doff u.toNat →
      (MemOp.cmove sba soff dba doff u).Sets m
        fun i => byte m.arrays sba (copied sba soff dba doff i)) ∧
    ∀ ops : List MemOp, (∀ op ∈ ops, op.InRange m.arrays) →
      ∃ m', seq (ops.map MemOp.word) m = .ok m' ∧ ∀ ba i, (∀ op ∈ ops, ¬ op.Touches ba i) →
        byte m'.arrays ba i = byte m.arrays ba i :=
  ⟨fun ba off _ => storeLaw_iff m ba off, plusStoreLaw_iff m,
    fun ba off _ _ => twoStoreLaw_iff m ba off, cStoreLaw m, fill_sets m,
    fun _ _ _ _ => cmove_sets m, fun ops => MemOp.frame ops m⟩

/-- -1 comes back as the unsigned number of its bytes. -/
theorem negative_cell_unsigned : ¬ StoreLaw ⟨[], [List.replicate 8 0], 10, none⟩ 0 0 (-1) := by
  rw [storeLaw_iff _ _ _ ⟨_, rfl, by decide⟩ ⟨by decide, by decide⟩]
  decide

end FactorForth.Cells
