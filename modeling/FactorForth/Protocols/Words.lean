import Mathlib.Data.Int.Bitwise
import FactorForth.Semantics.Machine

/-! The machine under the class library: values, the stores of `forth.runtime` that hold the
elements of collections, and the words that the library's definitions are written with. -/

namespace FactorForth.Protocols
open FactorForth.Semantics (LoopFrame)

/-- The library's own words that it passes as execution tokens. -/
inductive Tick where
  | lesser | greater
  deriving DecidableEq

/-- A value. An object of a library class holds its slots; `addr` is a store, and `other` stands for
whatever else the program has, its execution tokens among them. -/
inductive Val (α : Type) where
  | int (n : Int)
  | addr (a : Nat)
  | grid (w h : Int) (cells : Nat)
  | darray (data : Nat)
  | string (chars : Val α)
  | dict (data : Nat)
  | set (data : Nat)
  | tick (t : Tick)
  | other (o : α)
  deriving DecidableEq

/-- What a store holds. The order of a hash is the order of insertion. -/
inductive Store (α : Type) where
  | cells (xs : List (Val α))
  | rawvec (xs : List (Val α))
  | hash (entries : List (Val α × Val α))
  | hashset (xs : List (Val α))
  deriving DecidableEq

structure Machine (α ω : Type) where
  stack : List (Val α)
  frames : List LoopFrame
  heap : List (Store α)
  world : ω

inductive Fault where
  | underflow | bounds | noMethod | notNumber | missing | spent
  deriving DecidableEq

/-- What the program around the library supplies: its execution tokens and its methods of `equals?`
and `cmp`, which act on the rest of the program's state, and Factor's `=` and hash order. -/
structure Program (α ω : Type) where
  call1 : α → Val α → StateM ω PUnit
  call1r : α → Val α → StateM ω (Val α)
  call2r : α → Val α → Val α → StateM ω (Val α)
  equals : Val α → Val α → StateM ω Int
  cmp : Val α → Val α → StateM ω Int
  /-- Is a value other than an integer the number zero? -/
  isZero : α → Bool
  /-- What `set-nth` leaves between the old end of a vector and the new element. -/
  filler : Val α
  /-- Factor's `f`, which `at*` yields for a missing key. -/
  f : α
  same : Val α → Val α → Bool
  same_equiv : Equivalence fun a b => same a b = true
  order : List (Val α) → List (Val α)
  order_perm : ∀ xs, (order xs).Perm xs

abbrev Word (α ω : Type) : Type := Machine α ω → Except Fault (Machine α ω)

variable {α ω : Type}

/-- The words of a body, one after the other. -/
def seq : List (Word α ω) → Word α ω
  | [] => fun m => .ok m
  | w :: ws => fun m => w m >>= seq ws

/-! Words on the data stack. -/

def shuffle (f : List (Val α) → Option (List (Val α))) : Word α ω := fun m =>
  match f m.stack with
  | some st => .ok { m with stack := st }
  | none => .error .underflow

def push (v : Val α) : Word α ω := fun m => .ok { m with stack := v :: m.stack }

def lit (n : Int) : Word α ω := push (.int n)

def dup : Word α ω := shuffle fun
  | x :: st => some (x :: x :: st)
  | _ => none

def drop : Word α ω := shuffle fun
  | _ :: st => some st
  | _ => none

def swap : Word α ω := shuffle fun
  | y :: x :: st => some (x :: y :: st)
  | _ => none

def over_ : Word α ω := shuffle fun
  | y :: x :: st => some (x :: y :: x :: st)
  | _ => none

def nip : Word α ω := shuffle fun
  | y :: _ :: st => some (y :: st)
  | _ => none

def twoDup : Word α ω := shuffle fun
  | y :: x :: st => some (y :: x :: y :: x :: st)
  | _ => none

def twoDrop : Word α ω := shuffle fun
  | _ :: _ :: st => some st
  | _ => none

/-- `{: x :}`. -/
def bind1 (k : Val α → Word α ω) : Word α ω := fun m =>
  match m.stack with
  | x :: st => k x { m with stack := st }
  | _ => .error .underflow

/-- `{: x y :}`; the last name takes the top of the stack. -/
def bind2 (k : Val α → Val α → Word α ω) : Word α ω := fun m =>
  match m.stack with
  | y :: x :: st => k x y { m with stack := st }
  | _ => .error .underflow

/-- `{: x y z :}`. -/
def bind3 (k : Val α → Val α → Val α → Word α ω) : Word α ω := fun m =>
  match m.stack with
  | z :: y :: x :: st => k x y z { m with stack := st }
  | _ => .error .underflow

/-! Numbers and flags. -/

/-- `bool>flag ( ? -- n )`. -/
def boolToFlag (b : Bool) : Int := if b then -1 else 0

def int1 (f : Int → Int) : Word α ω := fun m =>
  match m.stack with
  | .int a :: st => .ok { m with stack := .int (f a) :: st }
  | _ => .error .notNumber

def int2 (f : Int → Int → Int) : Word α ω := fun m =>
  match m.stack with
  | .int b :: .int a :: st => .ok { m with stack := .int (f a b) :: st }
  | _ => .error .notNumber

def plus : Word α ω := int2 fun a b => a + b
def minus : Word α ω := int2 fun a b => a - b
def times : Word α ω := int2 fun a b => a * b
def min_ : Word α ω := int2 fun a b => min a b
def bitand : Word α ω := int2 Int.land
def bitor : Word α ω := int2 Int.lor
def greaterThan : Word α ω := int2 fun a b => boolToFlag (decide (b < a))
def onePlus : Word α ω := int1 (· + 1)
def oneMinus : Word α ω := int1 (· - 1)
def zeroLess : Word α ω := int1 fun a => boolToFlag (decide (a < 0))
def zeroGreater : Word α ω := int1 fun a => boolToFlag (decide (0 < a))

section Flags
variable (P : Program α ω)

/-- Factor's `zero?`, which is false of everything that is not a number. -/
def Program.zero : Val α → Bool
  | .int n => n == 0
  | .other o => P.isZero o
  | _ => false

/-- A cell is true when it is not zero. -/
def Program.truthy (v : Val α) : Bool := !P.zero v

def zeroEqual : Word α ω := fun m =>
  match m.stack with
  | v :: st => .ok { m with stack := .int (boolToFlag (P.zero v)) :: st }
  | _ => .error .underflow

/-- `IF … ELSE … THEN`; without `ELSE` the other body is empty. -/
def ifElse (thenBody elseBody : List (Word α ω)) : Word α ω := fun m =>
  match m.stack with
  | v :: st =>
    if P.truthy v then seq thenBody { m with stack := st } else seq elseBody { m with stack := st }
  | _ => .error .underflow

end Flags

/-! Counted loops. -/

/-- `i ( -- n )`. -/
def index : Word α ω := fun m =>
  match m.frames with
  | frame :: _ => .ok { m with stack := .int frame.index :: m.stack }
  | [] => .error .underflow

/-- `bump-loop ( delta -- done? )`. -/
def bumpLoop (delta : Int) (m : Machine α ω) : Except Fault (Bool × Machine α ω) :=
  match m.frames with
  | frame :: frames =>
    if frame.left then .ok (true, m)
    else
      let newIndex := frame.index + delta
      .ok (decide (frame.limit ≤ newIndex),
        { m with frames := { frame with index := newIndex } :: frames })
  | [] => .error .underflow

def popLoopFrame : Word α ω := fun m =>
  match m.frames with
  | _ :: frames => .ok { m with frames := frames }
  | [] => .error .underflow

/-- `[ quot call bump-loop not ] loop` with the step of LOOP; `spent` is the end of the fuel. -/
def passes (body : List (Word α ω)) : Nat → Word α ω
  | 0 => fun _ => .error .spent
  | fuel + 1 => fun m => do
    let m ← seq body m
    let (done, m) ← bumpLoop 1 m
    if done then .ok m else passes body fuel m

/-- `do-loop ( limit start quot -- )` under LOOP, which makes one pass at least. -/
def doLoop (body : List (Word α ω)) : Word α ω := fun m =>
  match m.stack with
  | .int start :: .int limit :: st => do
    let m ← passes body (max 1 (limit - start)).toNat
      { m with stack := st, frames := ⟨limit, start, false⟩ :: m.frames }
    popLoopFrame m
  | _ => .error .notNumber

/-- `?do-loop ( limit start quot -- )` under LOOP. -/
def qdoLoop (body : List (Word α ω)) : Word α ω := fun m =>
  match m.stack with
  | .int start :: .int limit :: st =>
    if limit = start then .ok { m with stack := st } else doLoop body m
  | _ => .error .notNumber

/-! Execution tokens and open protocols. -/

section Calls
variable (P : Program α ω)

/-- Run what belongs to the program on its part of the state. -/
def inWorld {β : Type} (act : StateM ω β) (k : β → Word α ω) : Word α ω := fun m =>
  let r := act.run m.world
  k r.1 { m with world := r.2 }

/-- `equals? ( a b -- ? )`. -/
def equals? : Word α ω := bind2 fun a b => inWorld (P.equals a b) lit

/-- `cmp ( a b -- n )`. -/
def cmp : Word α ω := bind2 fun a b => inWorld (P.cmp a b) lit

def before? : Word α ω := seq [cmp P, zeroLess]

def after? : Word α ω := seq [cmp P, zeroGreater]

def lesser : Word α ω := seq [twoDup, before? P, ifElse P [drop] [nip]]

def greater : Word α ω := seq [twoDup, after? P, ifElse P [drop] [nip]]

/-- `call1 ( x xt -- )`. -/
def call1 : Word α ω := bind2 fun x xt =>
  match xt with
  | .other o => inWorld (P.call1 o x) fun _ => seq []
  | _ => fun _ => .error .noMethod

/-- `call1> ( x xt -- y )`. -/
def call1r : Word α ω := bind2 fun x xt =>
  match xt with
  | .other o => inWorld (P.call1r o x) push
  | _ => fun _ => .error .noMethod

/-- `call2> ( a b xt -- y )`. -/
def call2r : Word α ω := bind3 fun a b xt =>
  match xt with
  | .other o => inWorld (P.call2r o a b) push
  | .tick .lesser => seq [push a, push b, lesser P]
  | .tick .greater => seq [push a, push b, greater P]
  | _ => fun _ => .error .noMethod

end Calls

/-! The stores. -/

def Store.cells? : Store α → Option (List (Val α))
  | .cells xs => some xs
  | _ => none

def Store.rawvec? : Store α → Option (List (Val α))
  | .rawvec xs => some xs
  | _ => none

def Store.hash? : Store α → Option (List (Val α × Val α))
  | .hash entries => some entries
  | _ => none

def Store.hashset? : Store α → Option (List (Val α))
  | .hashset xs => some xs
  | _ => none

/-- A new store; its address is on the stack. -/
def alloc (store : Store α) : Word α ω := fun m =>
  .ok { m with stack := .addr m.heap.length :: m.stack, heap := m.heap ++ [store] }

def write (a : Nat) (store : Store α) : Word α ω := fun m =>
  .ok { m with heap := m.heap.set a store }

/-- Take the address of a store of one kind and go on with what the store holds. -/
def withStore {β : Type} (kind : Store α → Option β) (k : Nat → β → Word α ω) : Word α ω := fun m =>
  match m.stack with
  | .addr a :: st =>
    match m.heap[a]?.bind kind with
    | some xs => k a xs { m with stack := st }
    | none => .error .noMethod
  | _ => .error .noMethod

/-- `nth ( i seq -- x )`, which checks its bounds. -/
def nth (xs : List (Val α)) : Val α → Word α ω
  | .int i => fun m =>
    if 0 ≤ i then
      match xs[i.toNat]? with
      | some x => push x m
      | none => .error .bounds
    else .error .bounds
  | _ => fun _ => .error .noMethod

/-- `<cells> ( n -- seq )`. -/
def newCells : Word α ω := bind1 fun
  | .int n => fun m =>
    if 0 ≤ n then alloc (.cells (List.replicate n.toNat (.int 0))) m else .error .bounds
  | _ => fun _ => .error .notNumber

/-- `cells@ ( seq i -- x )`. -/
def cellsAt : Word α ω := bind1 fun i => withStore Store.cells? fun _ xs => nth xs i

/-- `cells! ( x seq i -- )`. -/
def cellsSet : Word α ω := bind1 fun
  | .int i => withStore Store.cells? fun a xs => bind1 fun x => fun m =>
    if 0 ≤ i ∧ i < xs.length then write a (.cells (xs.set i.toNat x)) m else .error .bounds
  | _ => fun _ => .error .noMethod

/-- `<rawvec> ( -- v )`. -/
def newRawvec : Word α ω := alloc (.rawvec [])

/-- `rawvec-push ( x v -- )`. -/
def rawvecPush : Word α ω := withStore Store.rawvec? fun a xs => bind1 fun x =>
  write a (.rawvec (xs ++ [x]))

/-- `rawvec-len ( v -- n )`. -/
def rawvecLen : Word α ω := withStore Store.rawvec? fun _ xs => lit xs.length

/-- `rawvec-at ( i v -- x )`. -/
def rawvecAt : Word α ω := withStore Store.rawvec? fun _ xs => bind1 (nth xs)

/-- `rawvec-set ( x i v -- )`, which grows the vector as far as it needs. -/
def rawvecSet (P : Program α ω) : Word α ω := withStore Store.rawvec? fun a xs => bind2 fun
  | x, .int i => fun m =>
    if 0 ≤ i then
      let grown := xs ++ List.replicate (i.toNat + 1 - xs.length) P.filler
      write a (.rawvec (grown.set i.toNat x)) m
    else .error .bounds
  | _, _ => fun _ => .error .noMethod

section Hashes
variable (P : Program α ω)

/-- Is an equal element among these? -/
def Program.among (x : Val α) (xs : List (Val α)) : Bool := xs.any (P.same x)

/-- The value under a key of a hashtable. -/
def Program.under (k : Val α) (entries : List (Val α × Val α)) : Option (Val α) :=
  (entries.find? fun e => P.same k e.1).map (·.2)

/-- `adjoin`. -/
def Program.adjoin (x : Val α) (xs : List (Val α)) : List (Val α) :=
  if P.among x xs then xs else xs ++ [x]

/-- `set-at`. -/
def Program.setAt (v k : Val α) (entries : List (Val α × Val α)) : List (Val α × Val α) :=
  entries.filter (fun e => !P.same k e.1) ++ [(k, v)]

/-- `<hashset> ( -- s )`. -/
def newHashset : Word α ω := alloc (.hashset [])

/-- `hs-add ( elt s -- )`. -/
def hsAdd : Word α ω := withStore Store.hashset? fun a xs => bind1 fun x =>
  write a (.hashset (P.adjoin x xs))

/-- `hs-in? ( elt s -- ? )`. -/
def hsIn? : Word α ω := withStore Store.hashset? fun _ xs => bind1 fun x =>
  lit (boolToFlag (P.among x xs))

/-- `hs-len ( s -- n )`. -/
def hsLen : Word α ω := withStore Store.hashset? fun _ xs => lit xs.length

/-- `hs-members ( s -- vec )`. -/
def hsMembers : Word α ω := withStore Store.hashset? fun _ xs => alloc (.rawvec (P.order xs))

/-- `<hash> ( -- h )`. -/
def newHash : Word α ω := alloc (.hash [])

/-- `hash-at ( key h -- value ? )`. -/
def hashAt : Word α ω := withStore Store.hash? fun _ entries => bind1 fun k =>
  match P.under k entries with
  | some v => seq [push v, lit (boolToFlag true)]
  | none => seq [push (.other P.f), lit (boolToFlag false)]

/-- `hash! ( value key h -- )`. -/
def hashSet : Word α ω := withStore Store.hash? fun a entries => bind2 fun v k =>
  write a (.hash (P.setAt v k entries))

/-- `hash-len ( h -- n )`. -/
def hashLen : Word α ω := withStore Store.hash? fun _ entries => lit entries.length

/-- `hash-keys ( h -- vec )`. -/
def hashKeys : Word α ω := withStore Store.hash? fun _ entries =>
  alloc (.rawvec (P.order (entries.map (·.1))))

end Hashes

end FactorForth.Protocols
