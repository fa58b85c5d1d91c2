import FactorForth.Library.Command
import FactorForth.Compiler.Ir

/-! The machine under the emitted code: values, the stacks, and the primitive commands on them. -/

namespace FactorForth.Semantics
open FactorForth.Library FactorForth.Compiler

/-- A Factor value. A quotation carries the locals in scope where it was written. -/
inductive Value (Obj : Type) where
  | int (n : Int)
  | bool (b : Bool)
  | quot (env : List (String × Value Obj)) (code : List Tok)
  | obj (o : Obj)

abbrev Env (Obj : Type) : Type := List (String × Value Obj)

structure LoopFrame where
  limit : Int
  index : Int
  left : Bool

structure Machine (Obj World : Type) where
  stack : List (Value Obj)
  frames : List LoopFrame
  world : World

/-- A machine together with the locals in scope at the current point of the code. -/
structure State (Obj World : Type) extends Machine Obj World where
  env : Env Obj

/-- The words that Factor, `forth.runtime` and the user program supply: what each reference does to
the machine, and what the compiler's own words ask of the other values. -/
structure Vm (Obj World : Type) where
  word : Target → Machine Obj World → Machine Obj World → Prop
  name : String → Machine Obj World → Machine Obj World → Prop
  letForm : LetLang.LetForm → Machine Obj World → Machine Obj World → Prop
  symbol : String → Obj
  str : String → Obj
  float : FloatLit → Obj
  isZero : Obj → Bool
  same : Value Obj → Value Obj → Bool

variable {Obj World : Type}

abbrev Command (Obj World α : Type) : Type := Cmd (State Obj World) α

/-- Factor's `zero?`, which is false of everything that is not a number. -/
def Vm.zero (V : Vm Obj World) : Value Obj → Bool
  | .int n => n == 0
  | .obj o => V.isZero o
  | _ => false

/-- Factor's `=` on two values; on integers it compares the numbers. -/
def Vm.equal (V : Vm Obj World) : Value Obj → Value Obj → Bool
  | .int m, .int n => m == n
  | a, b => V.same a b

/-- Every Factor value but `f` is true. -/
def Value.truthy : Value Obj → Bool
  | .bool b => b
  | _ => true

@[simp] theorem truthy_bool (b : Bool) : (Value.bool b : Value Obj).truthy = b := by
  cases b <;> rfl

def pop : Command Obj World (Value Obj) := Cmd.ofOption fun s =>
  match s.stack with
  | v :: st => some (v, { s with stack := st })
  | [] => none

def push (v : Value Obj) : Command Obj World PUnit := Cmd.ofOption fun s =>
  some (⟨⟩, { s with stack := v :: s.stack })

def popQuot : Command Obj World (Env Obj × List Tok) := Cmd.ofOption fun s =>
  match s.stack with
  | .quot env code :: st => some ((env, code), { s with stack := st })
  | _ => none

def popInt : Command Obj World Int := Cmd.ofOption fun s =>
  match s.stack with
  | .int n :: st => some (n, { s with stack := st })
  | _ => none

def getEnv : Command Obj World (Env Obj) := Cmd.ofOption fun s => some (s.env, s)

def setEnv (env : Env Obj) : Command Obj World PUnit :=
  Cmd.ofOption fun s => some (⟨⟩, { s with env := env })

/-- A change of the machine alone. -/
def onMachine (r : Machine Obj World → Machine Obj World → Prop) : Command Obj World PUnit :=
  Cmd.ofRel fun s t => r s.toMachine t.toMachine ∧ t.env = s.env

/-- `push-loop-frame ( limit start -- )`. -/
def pushLoopFrame (limit start : Int) : Command Obj World PUnit :=
  Cmd.ofOption fun s => some (⟨⟩, { s with frames := ⟨limit, start, false⟩ :: s.frames })

/-- `bump-loop ( delta -- done? )`. -/
def bumpLoop (delta : Int) : Command Obj World Bool := Cmd.ofOption fun s =>
  match s.frames with
  | frame :: frames =>
    if frame.left then some (true, s)
    else
      let newIndex := frame.index + delta
      some (decide (frame.limit ≤ newIndex),
        { s with frames := { frame with index := newIndex } :: frames })
  | [] => none

def popLoopFrame : Command Obj World PUnit := Cmd.ofOption fun s =>
  match s.frames with
  | _ :: frames => some (⟨⟩, { s with frames := frames })
  | [] => none

/-- Run `c` and forget the locals it brought into scope. -/
def inScope {α : Type} (c : Command Obj World α) : Command Obj World α := do
  let env ← getEnv
  let a ← c
  setEnv env
  pure a

def lookupLocal (name : String) : Command Obj World PUnit := Cmd.ofOption fun s =>
  (s.env.lookup name).map fun v => (⟨⟩, { s with stack := v :: s.stack })

/-- Bind the top of the stack; a discard only drops it. -/
def bindLocal (name : Option String) : Command Obj World PUnit := Cmd.ofOption fun s =>
  match s.stack with
  | v :: st => some (⟨⟩, { s with stack := st, env := (name.elim s.env fun n => (n, v) :: s.env) })
  | [] => none

/-- What a reference does: a local is pushed, EXIT leaves, any other word runs. -/
def Vm.reference (V : Vm Obj World) (t : Target) : Command Obj World PUnit :=
  match t with
  | .local_ n => lookupLocal n
  | t => if t = Target.exit then Cmd.exit else onMachine (V.word t)

/-! How the stack commands meet. -/

section Algebra
variable {α : Type}

theorem push_bind (v : Value Obj) (f : PUnit → Command Obj World α) (s : State Obj World) :
    (push v >>= f) s = f ⟨⟩ { s with stack := v :: s.stack } := by
  unfold push
  rw [Cmd.ofOption_bind_some rfl]

theorem push_apply (v : Value Obj) (s : State Obj World) :
    push v s = (pure ⟨⟩ : Command Obj World PUnit) { s with stack := v :: s.stack } := by
  have h := push_bind v (fun a => (pure a : Command Obj World PUnit)) s
  rwa [Cmd.bind_pure] at h

theorem getEnv_bind (f : Env Obj → Command Obj World α) (s : State Obj World) :
    (getEnv >>= f) s = f s.env s := by
  unfold getEnv
  exact Cmd.ofOption_bind_some (p := (_, s)) rfl f

theorem setEnv_bind (env : Env Obj) (f : PUnit → Command Obj World α) (s : State Obj World) :
    (setEnv env >>= f) s = f ⟨⟩ { s with env := env } := by
  unfold setEnv
  rw [Cmd.ofOption_bind_some rfl]

theorem pop_bind {s : State Obj World} {v : Value Obj} {st : List (Value Obj)}
    (h : s.stack = v :: st) (f : Value Obj → Command Obj World α) :
    (pop >>= f) s = f v { s with stack := st } := by
  unfold pop
  exact Cmd.ofOption_bind_some (p := (v, _)) (by simp only [h]) f

theorem pop_bind_nil {s : State Obj World} (h : s.stack = [])
    (f : Value Obj → Command Obj World α) (out : Out (State Obj World) α) :
    ¬ (pop >>= f) s out := by
  unfold pop
  exact Cmd.ofOption_bind_none (by simp only [h]) f out

theorem popQuot_bind {s : State Obj World} {env : Env Obj} {code : List Tok}
    {st : List (Value Obj)} (h : s.stack = .quot env code :: st)
    (f : Env Obj × List Tok → Command Obj World α) :
    (popQuot >>= f) s = f (env, code) { s with stack := st } := by
  unfold popQuot
  exact Cmd.ofOption_bind_some (p := ((env, code), _)) (by simp only [h]) f

theorem popInt_bind {s : State Obj World} {n : Int} {st : List (Value Obj)}
    (h : s.stack = .int n :: st) (f : Int → Command Obj World α) :
    (popInt >>= f) s = f n { s with stack := st } := by
  unfold popInt
  exact Cmd.ofOption_bind_some (p := (n, _)) (by simp only [h]) f

@[simp] theorem push_pop (v : Value Obj) (f : Value Obj → Command Obj World α) :
    (push v >>= fun _ => pop >>= f) = f v := by
  funext s
  rw [push_bind, pop_bind rfl]

@[simp] theorem push_popQuot (env : Env Obj) (code : List Tok)
    (f : Env Obj × List Tok → Command Obj World α) :
    (push (.quot env code) >>= fun _ => popQuot >>= f) = f (env, code) := by
  funext s
  rw [push_bind, popQuot_bind rfl]

@[simp] theorem push_popInt (n : Int) (f : Int → Command Obj World α) :
    (push (.int n) >>= fun _ => popInt >>= f) = f n := by
  funext s
  rw [push_bind, popInt_bind rfl]

@[simp] theorem push_getEnv (v : Value Obj) (f : Env Obj → Command Obj World α) :
    (push v >>= fun _ => getEnv >>= f) = (getEnv >>= fun env => push v >>= fun _ => f env) := by
  funext s
  rw [push_bind, getEnv_bind, getEnv_bind, push_bind]

@[simp] theorem getEnv_getEnv (f : Env Obj → Env Obj → Command Obj World α) :
    (getEnv >>= fun env => getEnv >>= f env) = (getEnv >>= fun env => f env env) := by
  funext s
  rw [getEnv_bind, getEnv_bind, getEnv_bind]

@[simp] theorem getEnv_const (c : Command Obj World α) : (getEnv >>= fun _ => c) = c := by
  funext s
  rw [getEnv_bind]

@[simp] theorem getEnv_setEnv (f : Env Obj → Command Obj World α) :
    (getEnv >>= fun env => setEnv env >>= fun _ => f env) = (getEnv >>= f) := by
  funext s
  rw [getEnv_bind, setEnv_bind, getEnv_bind]

theorem getEnv_pop (f : Env Obj → Value Obj → Command Obj World α) :
    (getEnv >>= fun env => pop >>= fun v => f env v) =
      (pop >>= fun v => getEnv >>= fun env => f env v) := by
  funext s
  rw [getEnv_bind]
  cases h : s.stack with
  | nil =>
    funext out
    exact propext (iff_of_false (pop_bind_nil h _ out) (pop_bind_nil h _ out))
  | cons v st => rw [pop_bind h, pop_bind h, getEnv_bind]

end Algebra

/-! Commands that end with the locals they started with. -/

def KeepsEnv {α : Type} (c : Command Obj World α) : Prop :=
  ∀ s a t, c s (.ok a t) → t.env = s.env

section KeepsEnv
variable {α β : Type}

theorem inScope_apply (c : Command Obj World α) (s : State Obj World)
    (out : Out (State Obj World) α) :
    inScope c s out ↔ (∃ a t, c s (.ok a t) ∧ out = .ok a { t with env := s.env }) ∨
      (∃ t, out = .ret t ∧ c s (.ret t)) ∨ (out = .fault ∧ c s .fault) := by
  unfold inScope
  rw [getEnv_bind, Cmd.bind_apply]
  simp only [setEnv_bind, Cmd.pure_apply]

theorem KeepsEnv.inScope (c : Command Obj World α) : KeepsEnv (inScope c) := by
  intro s a t h
  rcases (inScope_apply c s _).1 h with ⟨a', t', -, ht⟩ | ⟨t', ht, -⟩ | ⟨ht, -⟩
  · cases ht
    rfl
  · cases ht
  · cases ht

theorem KeepsEnv.inScope_eq {c : Command Obj World α} (h : KeepsEnv c) :
    Semantics.inScope c = c := by
  refine Cmd.ext fun s out => ?_
  rw [inScope_apply]
  constructor
  · rintro (⟨a, t, ha, rfl⟩ | ⟨t, rfl, ht⟩ | ⟨rfl, ht⟩)
    · have henv := h s a t ha
      rw [← henv]
      exact ha
    · exact ht
    · exact ht
  · intro hs
    cases out with
    | ok a t =>
      have henv := h s a t hs
      refine Or.inl ⟨a, t, hs, ?_⟩
      rw [← henv]
    | ret t => exact Or.inr (Or.inl ⟨t, rfl, hs⟩)
    | fault => exact Or.inr (Or.inr ⟨rfl, hs⟩)

theorem KeepsEnv.pure (a : α) : KeepsEnv (pure a : Command Obj World α) := by
  intro s b t h
  cases h
  rfl

theorem KeepsEnv.bind {c : Command Obj World α} {f : α → Command Obj World β} (hc : KeepsEnv c)
    (hf : ∀ a, KeepsEnv (f a)) : KeepsEnv (c >>= f) := by
  intro s b t h
  obtain ⟨a, u, ha, hb⟩ := Cmd.bind_ok.1 h
  rw [hf a u b t hb, hc s a u ha]

theorem KeepsEnv.ite {p : Prop} [Decidable p] {c d : Command Obj World α} (hc : KeepsEnv c)
    (hd : KeepsEnv d) : KeepsEnv (if p then c else d) := by
  split
  · exact hc
  · exact hd

theorem KeepsEnv.guard (p : State Obj World → Prop) : KeepsEnv (Cmd.guard p) := by
  rintro s a t (⟨-, h⟩ | ⟨-, h⟩)
  · cases h
    rfl
  · cases h

theorem KeepsEnv.exit : KeepsEnv (Cmd.exit : Command Obj World α) := fun _ _ _ h => nomatch h

theorem KeepsEnv.loop {pass : Command Obj World Bool} (h : KeepsEnv pass) :
    KeepsEnv (Cmd.loop pass) := by
  intro s n t hs
  obtain ⟨u, hu, ht⟩ := Cmd.loop_ok (p := fun u => u.env = s.env)
    (fun v w hv hw => (h v true w hw).trans hv) hs rfl
  exact (h u false t ht).trans hu

theorem KeepsEnv.rounds {pass : Command Obj World Bool} (h : KeepsEnv pass) :
    KeepsEnv (Cmd.rounds pass) := by
  unfold Cmd.rounds
  exact h.loop.bind fun _ => KeepsEnv.pure _

theorem KeepsEnv.ofOption {f : State Obj World → Option (α × State Obj World)}
    (h : ∀ s p, f s = some p → p.2.env = s.env) : KeepsEnv (Cmd.ofOption f) := by
  rintro s a t ⟨p, hp, ht⟩
  cases ht
  exact h s p hp

theorem KeepsEnv.onMachine (r : Machine Obj World → Machine Obj World → Prop) :
    KeepsEnv (onMachine r) := by
  rintro s a t ⟨u, hu, ht⟩
  cases ht
  exact hu.2

theorem KeepsEnv.push (v : Value Obj) : KeepsEnv (push v : Command Obj World PUnit) :=
  KeepsEnv.ofOption fun s p h => by cases h; rfl

theorem KeepsEnv.pop : KeepsEnv (pop : Command Obj World (Value Obj)) :=
  KeepsEnv.ofOption fun s p h => by
    split at h
    · cases h
      rfl
    · cases h

theorem KeepsEnv.popInt : KeepsEnv (popInt : Command Obj World Int) :=
  KeepsEnv.ofOption fun s p h => by
    split at h
    · cases h
      rfl
    · cases h

theorem KeepsEnv.getEnv : KeepsEnv (getEnv : Command Obj World (Env Obj)) :=
  KeepsEnv.ofOption fun s p h => by cases h; rfl

theorem KeepsEnv.pushLoopFrame (limit start : Int) :
    KeepsEnv (pushLoopFrame limit start : Command Obj World PUnit) :=
  KeepsEnv.ofOption fun s p h => by cases h; rfl

theorem KeepsEnv.bumpLoop (delta : Int) : KeepsEnv (bumpLoop delta : Command Obj World Bool) :=
  KeepsEnv.ofOption fun s p h => by
    split at h
    · split at h
      · cases h
        rfl
      · cases h
        rfl
    · cases h

theorem KeepsEnv.popLoopFrame : KeepsEnv (popLoopFrame : Command Obj World PUnit) :=
  KeepsEnv.ofOption fun s p h => by
    split at h
    · cases h
      rfl
    · cases h

theorem KeepsEnv.lookupLocal (name : String) :
    KeepsEnv (lookupLocal name : Command Obj World PUnit) :=
  KeepsEnv.ofOption fun s p h => by
    obtain ⟨v, -, rfl⟩ := Option.map_eq_some_iff.1 h
    rfl

theorem KeepsEnv.reference (V : Vm Obj World) (t : Target) : KeepsEnv (V.reference t) := by
  unfold Vm.reference
  split
  · exact KeepsEnv.lookupLocal _
  · exact KeepsEnv.exit.ite (KeepsEnv.onMachine _)

theorem inScope_le {c d : Command Obj World α} (h : Cmd.Le c d) :
    Cmd.Le (Semantics.inScope c) (Semantics.inScope d) :=
  Cmd.Le.bind (Cmd.Le.refl _) fun _ => Cmd.Le.bind h fun _ => Cmd.Le.refl _

/-- A value left on the stack at the end of a scope. -/
theorem inScope_push (c : Command Obj World α) (f : α → Value Obj) :
    Semantics.inScope (c >>= fun a => Semantics.push (f a)) =
      Semantics.inScope c >>= fun a => Semantics.push (f a) := by
  refine Cmd.ext fun s out => ?_
  unfold Semantics.inScope
  simp only [bind_assoc]
  rw [getEnv_bind, getEnv_bind]
  refine iff_of_eq (congrFun (congrFun (congrArg (c >>= ·) (funext fun a => ?_)) s) out)
  funext t
  rw [push_bind, setEnv_bind, setEnv_bind, pure_bind, push_apply]

end KeepsEnv

/-- Only EXIT leaves a word early. -/
theorem reference_noRet (V : Vm Obj World) {t : Target} (h : t ≠ Target.exit) : Cmd.NoRet (V.reference t) := by
  unfold Vm.reference
  split
  · exact Cmd.NoRet.ofOption _
  · rw [if_neg h]
    exact Cmd.NoRet.ofRel _

/-! A machine with nothing but integers, flags and the words that move stack items. -/

def coreStep : Target → List (Value Unit) → Option (List (Value Unit))
  | .builtin "kernel" "dup", a :: st => some (a :: a :: st)
  | .builtin "kernel" "drop", _ :: st => some st
  | .builtin "kernel" "swap", a :: b :: st => some (b :: a :: st)
  | .builtin "kernel" "over", a :: b :: st => some (b :: a :: b :: st)
  | .builtin "kernel" "rot", a :: b :: c :: st => some (c :: a :: b :: st)
  | _, _ => none

def coreVm : Vm Unit Unit where
  word t m m' := coreStep t m.stack = some m'.stack ∧ m'.frames = m.frames
  name _ _ _ := False
  letForm _ _ _ := False
  symbol _ := ()
  str _ := ()
  float _ := ()
  isZero _ := false
  same _ _ := false

/-- A state of the core machine outside all loops and local scopes. -/
def coreState (st : List (Value Unit)) : State Unit Unit := ⟨⟨st, [], ()⟩, []⟩

section Core
variable {α : Type}

theorem pop_core (v : Value Unit) (st : List (Value Unit)) (f : Value Unit → Command Unit Unit α) :
    (pop >>= f) (coreState (v :: st)) = f v (coreState st) := pop_bind rfl f

theorem push_core (v : Value Unit) (st : List (Value Unit)) (f : PUnit → Command Unit Unit α) :
    (push v >>= f) (coreState st) = f ⟨⟩ (coreState (v :: st)) := push_bind v f _

theorem inScope_core {c : Command Unit Unit α} {st st' : List (Value Unit)} {a : α}
    (h : c (coreState st) = (pure a : Command Unit Unit α) (coreState st')) :
    inScope c (coreState st) = (pure a : Command Unit Unit α) (coreState st') := by
  unfold inScope
  rw [getEnv_bind, Cmd.bind_of_pure h, setEnv_bind]
  rfl

theorem reference_core (t : Target) {st st' : List (Value Unit)} (h : coreStep t st = some st') :
    coreVm.reference t (coreState st) = (pure ⟨⟩ : Command Unit Unit PUnit) (coreState st') := by
  have href : coreVm.reference t = onMachine (coreVm.word t) := by
    unfold Vm.reference
    cases t with
    | local_ n => cases h
    | qualifiedBuiltin vocab name => cases h
    | builtin vocab name => exact if_neg Target.noConfusion
    | userDefined name => cases h
  rw [href]
  funext out
  refine propext ⟨?_, ?_⟩
  · rintro ⟨⟨⟨stack, frames, world⟩, env⟩, ⟨⟨hstack, hframes⟩, henv⟩, rfl⟩
    have hst : st' = stack := Option.some.inj (h.symm.trans hstack)
    have hfr : frames = [] := hframes
    have hen : env = [] := henv
    subst hst hfr hen
    rfl
  · rintro rfl
    exact ⟨coreState st', ⟨⟨h, rfl⟩, rfl⟩, rfl⟩

end Core

end FactorForth.Semantics
