import FactorForth.Compiler.Dictionary

/-! The machine under the number and memory words of `forth.runtime`: its values, the words of Factor
that the bodies are written with, and how a body runs. -/

namespace FactorForth.Cells
open FactorForth.Compiler

/-- A Factor value; `addr` is an `nf-addr` of a byte array and an offset into it. -/
inductive Item where
  | int (n : Int)
  | flag (b : Bool)
  | array (ba : Nat)
  | addr (ba : Nat) (off : Int)
  deriving DecidableEq

/-- What a word may throw; `spent` stands for a loop that has not ended yet. -/
inductive Fault where
  | underflow | type | bounds | divisionByZero | spent
  deriving DecidableEq

/-- The buffer of `current-num-buf` is missing until `<#` has run. -/
structure Machine where
  stack : List Item
  arrays : List (List UInt8)
  numberBase : Int
  currentNumBuf : Option (List Int)
  deriving DecidableEq

abbrev Word : Type := Machine → Except Fault Machine

/-- The words of a body, one after the other. -/
def seq : List Word → Word
  | [] => fun m => .ok m
  | w :: ws => fun m => w m >>= seq ws

def shuffle (f : List Item → Option (List Item)) : Word := fun m =>
  match f m.stack with
  | some st => .ok { m with stack := st }
  | none => .error .underflow

def push (v : Item) : Word := fun m => .ok { m with stack := v :: m.stack }

def lit (n : Int) : Word := push (.int n)

def dup : Word := shuffle fun
  | x :: st => some (x :: x :: st)
  | _ => none

def drop : Word := shuffle fun
  | _ :: st => some st
  | _ => none

def swap : Word := shuffle fun
  | y :: x :: st => some (x :: y :: st)
  | _ => none

def over_ : Word := shuffle fun
  | y :: x :: st => some (x :: y :: x :: st)
  | _ => none

def nip : Word := shuffle fun
  | y :: _ :: st => some (y :: st)
  | _ => none

def tuck : Word := shuffle fun
  | y :: x :: st => some (y :: x :: y :: st)
  | _ => none

def twoDup : Word := shuffle fun
  | y :: x :: st => some (y :: x :: y :: x :: st)
  | _ => none

/-- `<nf-addr> ( ba off -- addr )`. -/
def newAddr : Word := shuffle fun
  | .int off :: .array ba :: st => some (.addr ba off :: st)
  | _ => none

/-! Arithmetic. Factor's integers have no bound. -/

def int1 (f : Int → Item) : Word := fun m =>
  match m.stack with
  | .int a :: st => .ok { m with stack := f a :: st }
  | _ :: _ => .error .type
  | [] => .error .underflow

def int2 (f : Int → Int → Except Fault (List Item)) : Word := fun m =>
  match m.stack with
  | .int b :: .int a :: st => do
    let vs ← f a b
    .ok { m with stack := vs ++ st }
  | _ :: _ :: _ => .error .type
  | _ => .error .underflow

def plus : Word := int2 fun a b => .ok [.int (a + b)]

def minus : Word := int2 fun a b => .ok [.int (a - b)]

def times : Word := int2 fun a b => .ok [.int (a * b)]

/-- `/i ( x y -- z )`, truncating. -/
def slashI : Word := int2 fun a b =>
  if b = 0 then .error .divisionByZero else .ok [.int (a.tdiv b)]

/-- `mod ( x y -- z )`, negative where `x` is. -/
def mod : Word := int2 fun a b =>
  if b = 0 then .error .divisionByZero else .ok [.int (a.tmod b)]

/-- `/mod ( x y -- z w )`, both at once. -/
def slashMod : Word := int2 fun a b =>
  if b = 0 then .error .divisionByZero else .ok [.int (a.tmod b), .int (a.tdiv b)]

def abs : Word := int1 fun a => .int a.natAbs

def less : Word := int2 fun a b => .ok [.flag (decide (a < b))]

def lessEq : Word := int2 fun a b => .ok [.flag (decide (a ≤ b))]

def equal : Word := int2 fun a b => .ok [.flag (decide (a = b))]

def xor : Word := fun m =>
  match m.stack with
  | .flag b :: .flag a :: st => .ok { m with stack := .flag (a ^^ b) :: st }
  | _ :: _ :: _ => .error .type
  | _ => .error .underflow

/-! Combinators. -/

/-- Every Factor value but `f` is true. -/
def Item.truthy : Item → Bool
  | .flag b => b
  | _ => true

def ifElse (p q : List Word) : Word := fun m =>
  match m.stack with
  | v :: st => if v.truthy then seq p { m with stack := st } else seq q { m with stack := st }
  | [] => .error .underflow

def when_ (p : List Word) : Word := ifElse p []

/-- `dip ( x quot -- x )`. -/
def dip (p : List Word) : Word := fun m =>
  match m.stack with
  | x :: st => seq p { m with stack := st } >>= push x
  | [] => .error .underflow

/-- `bi ( x p q -- )`. -/
def bi (p q : List Word) : Word := fun m =>
  match m.stack with
  | x :: _ => do
    let m ← seq p m
    let m ← push x m
    seq q m
  | [] => .error .underflow

/-- `until ( pred body -- )`, with a bound on its passes. -/
def until_ (p body : List Word) : Nat → Word
  | 0 => fun _ => .error .spent
  | fuel + 1 => fun m => do
    let m ← seq p m
    match m.stack with
    | v :: st =>
      let m := { m with stack := st }
      if v.truthy then .ok m else seq body m >>= until_ p body fuel
    | [] => .error .underflow

/-- `<iota> [| i | … ] each` over the indices from `i` on. -/
def eachIota (body : Int → Word) : Nat → Int → Word
  | 0, _ => fun m => .ok m
  | n + 1, i => fun m => body i m >>= eachIota body n (i + 1)

/-! The parameters of a `::` definition; the last name takes the top of the stack. -/

def bind1 (k : Item → Word) : Word := fun m =>
  match m.stack with
  | x :: st => k x { m with stack := st }
  | _ => .error .underflow

def bind2 (k : Item → Item → Word) : Word := fun m =>
  match m.stack with
  | y :: x :: st => k x y { m with stack := st }
  | _ => .error .underflow

def bind3 (k : Item → Item → Item → Word) : Word := fun m =>
  match m.stack with
  | z :: y :: x :: st => k x y z { m with stack := st }
  | _ => .error .underflow

section Runs
variable (st : List Item) (h : List (List UInt8)) (base : Int) (buf : Option (List Int))

@[simp] theorem seq_nil (m : Machine) : seq [] m = .ok m := rfl

@[simp] theorem seq_cons (w : Word) (ws : List Word) (m : Machine) :
    seq (w :: ws) m = w m >>= seq ws := rfl

@[simp] theorem ok_bind {α β : Type} (a : α) (f : α → Except Fault β) :
    (Except.ok a >>= f) = f a := rfl

@[simp] theorem error_bind {α β : Type} (e : Fault) (f : α → Except Fault β) :
    ((Except.error e : Except Fault α) >>= f) = .error e := rfl

@[simp] theorem bind_seq_nil (x : Except Fault Machine) : (x >>= seq []) = x := by
  cases x <;> rfl

/-- The machines between the passes of a counted loop. -/
theorem eachIota_run {body : Int → Word} {inv : Nat → Machine} (n i : Nat)
    (hstep : ∀ k, i ≤ k → k < i + n → body k (inv k) = .ok (inv (k + 1))) :
    eachIota body n i (inv i) = .ok (inv (i + n)) := by
  induction n generalizing i with
  | zero => rfl
  | succ n ih =>
    have hrest := ih (i + 1) fun k hlow hhigh => hstep k (by omega) (by omega)
    have hbody := hstep i (Nat.le_refl i) (by omega)
    rw [Nat.add_assoc, Nat.add_comm 1] at hrest
    simp only [eachIota, hbody, ok_bind]
    exact hrest

/-- The run ends in `m'`, given time. -/
def Ends (w : Nat → Word) (m m' : Machine) : Prop := ∃ k, ∀ fuel, k ≤ fuel → w fuel m = .ok m'

@[simp] theorem push_run (v : Item) : push v ⟨st, h, base, buf⟩ = .ok ⟨v :: st, h, base, buf⟩ := rfl

@[simp] theorem lit_run (n : Int) :
    lit n ⟨st, h, base, buf⟩ = .ok ⟨.int n :: st, h, base, buf⟩ := rfl

@[simp] theorem dup_run (x : Item) :
    dup ⟨x :: st, h, base, buf⟩ = .ok ⟨x :: x :: st, h, base, buf⟩ := rfl

@[simp] theorem drop_run (x : Item) :
    drop ⟨x :: st, h, base, buf⟩ = .ok ⟨st, h, base, buf⟩ := rfl

@[simp] theorem swap_run (x y : Item) :
    swap ⟨y :: x :: st, h, base, buf⟩ = .ok ⟨x :: y :: st, h, base, buf⟩ := rfl

@[simp] theorem over_run (x y : Item) :
    over_ ⟨y :: x :: st, h, base, buf⟩ = .ok ⟨x :: y :: x :: st, h, base, buf⟩ := rfl

@[simp] theorem nip_run (x y : Item) :
    nip ⟨y :: x :: st, h, base, buf⟩ = .ok ⟨y :: st, h, base, buf⟩ := rfl

@[simp] theorem tuck_run (x y : Item) :
    tuck ⟨y :: x :: st, h, base, buf⟩ = .ok ⟨y :: x :: y :: st, h, base, buf⟩ := rfl

@[simp] theorem twoDup_run (x y : Item) :
    twoDup ⟨y :: x :: st, h, base, buf⟩ = .ok ⟨y :: x :: y :: x :: st, h, base, buf⟩ := rfl

@[simp] theorem newAddr_run (ba : Nat) (off : Int) :
    newAddr ⟨.int off :: .array ba :: st, h, base, buf⟩ =
      .ok ⟨.addr ba off :: st, h, base, buf⟩ := rfl

@[simp] theorem plus_run (a b : Int) :
    plus ⟨.int b :: .int a :: st, h, base, buf⟩ = .ok ⟨.int (a + b) :: st, h, base, buf⟩ := rfl

@[simp] theorem minus_run (a b : Int) :
    minus ⟨.int b :: .int a :: st, h, base, buf⟩ = .ok ⟨.int (a - b) :: st, h, base, buf⟩ := rfl

@[simp] theorem times_run (a b : Int) :
    times ⟨.int b :: .int a :: st, h, base, buf⟩ = .ok ⟨.int (a * b) :: st, h, base, buf⟩ := rfl

@[simp] theorem abs_run (a : Int) :
    abs ⟨.int a :: st, h, base, buf⟩ = .ok ⟨.int a.natAbs :: st, h, base, buf⟩ := rfl

@[simp] theorem less_run (a b : Int) :
    less ⟨.int b :: .int a :: st, h, base, buf⟩ =
      .ok ⟨.flag (decide (a < b)) :: st, h, base, buf⟩ := rfl

@[simp] theorem lessEq_run (a b : Int) :
    lessEq ⟨.int b :: .int a :: st, h, base, buf⟩ =
      .ok ⟨.flag (decide (a ≤ b)) :: st, h, base, buf⟩ := rfl

@[simp] theorem equal_run (a b : Int) :
    equal ⟨.int b :: .int a :: st, h, base, buf⟩ =
      .ok ⟨.flag (decide (a = b)) :: st, h, base, buf⟩ := rfl

@[simp] theorem xor_run (a b : Bool) :
    xor ⟨.flag b :: .flag a :: st, h, base, buf⟩ = .ok ⟨.flag (a ^^ b) :: st, h, base, buf⟩ := rfl

@[simp] theorem ifElse_run (p q : List Word) (b : Bool) :
    ifElse p q ⟨.flag b :: st, h, base, buf⟩ =
      if b then seq p ⟨st, h, base, buf⟩ else seq q ⟨st, h, base, buf⟩ := rfl

@[simp] theorem when_run (p : List Word) (b : Bool) :
    when_ p ⟨.flag b :: st, h, base, buf⟩ =
      if b then seq p ⟨st, h, base, buf⟩ else .ok ⟨st, h, base, buf⟩ := rfl

@[simp] theorem dip_run (p : List Word) (x : Item) :
    dip p ⟨x :: st, h, base, buf⟩ = seq p ⟨st, h, base, buf⟩ >>= push x := rfl

@[simp] theorem bi_run (p q : List Word) (x : Item) :
    bi p q ⟨x :: st, h, base, buf⟩ = seq p ⟨x :: st, h, base, buf⟩ >>= push x >>= seq q := by
  unfold bi
  cases seq p ⟨x :: st, h, base, buf⟩ <;> rfl

@[simp] theorem bind1_run (k : Item → Word) (x : Item) :
    bind1 k ⟨x :: st, h, base, buf⟩ = k x ⟨st, h, base, buf⟩ := rfl

@[simp] theorem bind2_run (k : Item → Item → Word) (x y : Item) :
    bind2 k ⟨y :: x :: st, h, base, buf⟩ = k x y ⟨st, h, base, buf⟩ := rfl

@[simp] theorem bind3_run (k : Item → Item → Item → Word) (x y z : Item) :
    bind3 k ⟨z :: y :: x :: st, h, base, buf⟩ = k x y z ⟨st, h, base, buf⟩ := rfl

theorem slashI_run (a : Int) {b : Int} (hb : b ≠ 0) :
    slashI ⟨.int b :: .int a :: st, h, base, buf⟩ = .ok ⟨.int (a.tdiv b) :: st, h, base, buf⟩ := by
  simp [slashI, int2, if_neg hb]

theorem mod_run (a : Int) {b : Int} (hb : b ≠ 0) :
    mod ⟨.int b :: .int a :: st, h, base, buf⟩ = .ok ⟨.int (a.tmod b) :: st, h, base, buf⟩ := by
  simp [mod, int2, if_neg hb]

theorem slashMod_run (a : Int) {b : Int} (hb : b ≠ 0) :
    slashMod ⟨.int b :: .int a :: st, h, base, buf⟩ =
      .ok ⟨.int (a.tmod b) :: .int (a.tdiv b) :: st, h, base, buf⟩ := by
  simp [slashMod, int2, if_neg hb]

end Runs

end FactorForth.Cells
