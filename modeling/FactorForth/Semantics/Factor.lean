import FactorForth.Semantics.Machine

/-! The meaning of emitted code: quotations are values, and Factor's combinators call them. `loop`
and the counted loops are unfolded as their Factor definitions write them. -/

namespace FactorForth.Semantics
open FactorForth.Library FactorForth.Compiler
variable {Obj World : Type}

/-- How code is called; the meaning of whole programs is the limit over nesting depths. -/
abbrev Caller (Obj World : Type) : Type := List Tok → Command Obj World PUnit

/-- Call a quotation in the scope it closed over. -/
def callQuot (call : Caller Obj World) (q : Env Obj × List Tok) : Command Obj World PUnit := do
  let env ← getEnv
  setEnv q.1
  call q.2
  setEnv env

/-- `: loop ( pred -- ) [ call ] keep [ loop ] curry when ;` with the quotation in place. -/
def loopCode (q : List Tok) : List Tok :=
  [.quot q, .prim .call, .quot [.quot q, .prim .loop], .prim .whenQ]

/-- The body of `do-loop`, its limit and start being on the stack. -/
def doLoopCode (q : List Tok) : List Tok :=
  [.prim .pushLoopFrame, .quot [.quot q, .prim .call, .prim .bumpLoop, .prim .not], .prim .loop,
    .prim .popLoopFrame]

def stepPrim (V : Vm Obj World) (call : Caller Obj World) : Prim → Command Obj World PUnit
  | .zeroP => do
    let v ← pop
    push (.bool (V.zero v))
  | .not => do
    let v ← pop
    push (.bool (!v.truthy))
  | .eq => do
    let b ← pop
    let a ← pop
    push (.bool (V.equal a b))
  | .dup => do
    let v ← pop
    push v
    push v
  | .drop => do
    let _ ← pop
    pure ⟨⟩
  | .kernelDrop => do
    let _ ← pop
    pure ⟨⟩
  | .f => push (.bool false)
  | .t => push (.bool true)
  | .call => do
    let q ← popQuot
    callQuot call q
  | .ifQ => do
    let elseQ ← popQuot
    let thenQ ← popQuot
    let v ← pop
    if v.truthy then callQuot call thenQ else callQuot call elseQ
  | .unlessQ => do
    let q ← popQuot
    let v ← pop
    if v.truthy then pure ⟨⟩ else callQuot call q
  | .whenQ => do
    let q ← popQuot
    let v ← pop
    if v.truthy then callQuot call q else pure ⟨⟩
  | .loop => do
    let q ← popQuot
    callQuot call (q.1, loopCode q.2)
  | .doLoop => do
    let q ← popQuot
    callQuot call (q.1, doLoopCode q.2)
  | .qdoLoop => do
    let q ← popQuot
    let start ← pop
    let limit ← pop
    if V.equal limit start then pure ⟨⟩
    else
      push limit
      push start
      callQuot call (q.1, doLoopCode q.2)
  | .pushLoopFrame => do
    let start ← popInt
    let limit ← popInt
    pushLoopFrame limit start
  | .bumpLoop => do
    let delta ← popInt
    let done ← bumpLoop delta
    push (.bool done)
  | .popLoopFrame => popLoopFrame
  -- the continuation taken at entry holds the data stack as it was there
  | .withReturn => do
    let q ← popQuot
    let s ← Cmd.get
    (callQuot call q).catchRet fun t => { t with stack := s.stack, env := s.env }

def stepTok (V : Vm Obj World) (call : Caller Obj World) : Tok → Command Obj World PUnit
  | .int n => push (.int n)
  | .float x => push (.obj (V.float x))
  | .str s => push (.obj (V.str s))
  | .report s => push (.obj (V.str s))
  | .word t => V.reference t
  | .symbol s => push (.obj (V.symbol s))
  | .name s => onMachine (V.name s)
  | .prim p => stepPrim V call p
  | .bind name => bindLocal name
  | .letForm form => onMachine (V.letForm form)
  | .quot q => do
    let env ← getEnv
    push (.quot env q)

def runSeq (V : Vm Obj World) (call : Caller Obj World) : List Tok → Command Obj World PUnit
  | [] => pure ⟨⟩
  | tok :: rest => do
    stepTok V call tok
    runSeq V call rest

/-- Runs whose calls nest less than `k` deep. -/
def runDepth (V : Vm Obj World) : Nat → Caller Obj World
  | 0, _ => fun _ _ => False
  | k + 1, code => runSeq V (runDepth V k) code

def run (V : Vm Obj World) (code : List Tok) : Command Obj World PUnit :=
  Cmd.lim fun k => runDepth V k code

/-! The equations of `run`. -/

section Equations
open Cmd
variable {V : Vm Obj World} {c : Nat → Caller Obj World} {call : Caller Obj World}

theorem callQuot_tends (h : ∀ code, Tends (fun k => c k code) (call code))
    (q : Env Obj × List Tok) : Tends (fun k => callQuot (c k) q) (callQuot call q) :=
  Tends.bind (Tends.const _) fun _ => Tends.bind (Tends.const _) fun _ =>
    Tends.bind (h q.2) fun _ => Tends.const _

theorem stepPrim_tends (h : ∀ code, Tends (fun k => c k code) (call code)) (p : Prim) :
    Tends (fun k => stepPrim V (c k) p) (stepPrim V call p) := by
  have hq := callQuot_tends h
  cases p with
  | call => exact Tends.bind (Tends.const _) fun q => hq q
  | ifQ =>
    exact Tends.bind (Tends.const _) fun _ => Tends.bind (Tends.const _) fun _ =>
      Tends.bind (Tends.const _) fun _ => Tends.ite (hq _) (hq _)
  | unlessQ =>
    exact Tends.bind (Tends.const _) fun _ => Tends.bind (Tends.const _) fun _ =>
      Tends.ite (Tends.const _) (hq _)
  | whenQ =>
    exact Tends.bind (Tends.const _) fun _ => Tends.bind (Tends.const _) fun _ =>
      Tends.ite (hq _) (Tends.const _)
  | loop => exact Tends.bind (Tends.const _) fun _ => hq _
  | doLoop => exact Tends.bind (Tends.const _) fun _ => hq _
  | qdoLoop =>
    exact Tends.bind (Tends.const _) fun _ => Tends.bind (Tends.const _) fun _ =>
      Tends.bind (Tends.const _) fun _ => Tends.ite (Tends.const _)
        (Tends.bind (Tends.const _) fun _ => Tends.bind (Tends.const _) fun _ => hq _)
  | withReturn =>
    exact Tends.bind (Tends.const _) fun _ => Tends.bind (Tends.const _) fun _ => (hq _).catchRet _
  | _ => exact Tends.const _

theorem stepTok_tends (h : ∀ code, Tends (fun k => c k code) (call code)) (tok : Tok) :
    Tends (fun k => stepTok V (c k) tok) (stepTok V call tok) := by
  cases tok with
  | prim p => exact stepPrim_tends h p
  | _ => exact Tends.const _

theorem runSeq_tends (h : ∀ code, Tends (fun k => c k code) (call code)) (code : List Tok) :
    Tends (fun k => runSeq V (c k) code) (runSeq V call code) := by
  induction code with
  | nil => exact Tends.const _
  | cons tok rest ih => exact Tends.bind (stepTok_tends h tok) fun _ => ih

theorem runSeq_le {c d : Caller Obj World} (h : ∀ code, Le (c code) (d code)) (code : List Tok) :
    Le (runSeq V c code) (runSeq V d code) :=
  (runSeq_tends (c := fun k code => oneStep (c code) (d code) k) (fun code => Tends.ofLe (h code)) code).1
    0 1 (Nat.le_succ 0)

theorem runDepth_mono (V : Vm Obj World) (code : List Tok) : Mono fun k => runDepth V k code := by
  refine Mono.of_succ fun k => ?_
  induction k generalizing code with
  | zero => exact fun _ _ h => h.elim
  | succ k ih => exact runSeq_le ih code

theorem run_tends (V : Vm Obj World) (code : List Tok) :
    Tends (fun k => runDepth V k code) (run V code) := (runDepth_mono V code).tends

/-- `run` calls quotations by `run` itself. -/
theorem run_eq (V : Vm Obj World) (code : List Tok) : run V code = runSeq V (run V) code :=
  (run_tends V code).succ.unique (runSeq_tends (run_tends V) code)

theorem run_nil (V : Vm Obj World) : run V [] = pure ⟨⟩ := run_eq V []

theorem run_cons (V : Vm Obj World) (tok : Tok) (rest : List Tok) :
    run V (tok :: rest) = (do stepTok V (run V) tok; run V rest) := by
  rw [run_eq, runSeq, ← run_eq]

theorem run_append (V : Vm Obj World) (xs ys : List Tok) :
    run V (xs ++ ys) = (do run V xs; run V ys) := by
  induction xs with
  | nil => rw [List.nil_append, run_nil, pure_bind]
  | cons x xs ih => rw [List.cons_append, run_cons, ih, run_cons, Cmd.bind_assoc]

end Equations

end FactorForth.Semantics
