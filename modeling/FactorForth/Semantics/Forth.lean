import FactorForth.Compiler.Emit
import FactorForth.Semantics.Factor

/-! The meaning of the source: a body runs node by node, a cell is true when it is not zero, and
EXIT leaves the word at once with the machine as it stands. -/

namespace FactorForth.Semantics
open FactorForth.Library FactorForth.Compiler
variable {Obj World : Type}

/-- How a body is run: whether the code before OF sees a copy of the selector besides the selector
itself, and what is demanded of the number of passes of a loop, of the state before an arm's test
and of the state where no arm matched. A run that fails a demand faults. -/
structure Rules (Obj World : Type) where
  copySelector : Bool
  passes : Expr → Nat → Prop
  test : Command Obj World PUnit → State Obj World → Prop
  noMatch : Bool → Command Obj World PUnit → List Expr → State Obj World → Prop

/-- Nothing is demanded. -/
def Rules.free (copySelector : Bool) : Rules Obj World :=
  ⟨copySelector, fun _ _ => True, fun _ _ => True, fun _ _ _ _ => True⟩

/-- Take a flag: every cell but zero is true. -/
def popFlag (V : Vm Obj World) : Command Obj World Bool := do
  let v ← pop
  pure !V.zero v

def dropTop : Command Obj World PUnit := do
  let _ ← pop
  pure ⟨⟩

def pushIf (c : Bool) (v : Value Obj) : Command Obj World PUnit := if c then push v else pure ⟨⟩

/-- The test of one arm: is the selector the value that `m` leaves? The selector stays; where `m`
ran over a copy of it, the copy is taken. -/
def armTest (V : Vm Obj World) (copySelector : Bool) (m : Command Obj World PUnit) :
    Command Obj World Bool := do
  let v ← pop
  push v
  pushIf copySelector v
  m
  let b ← pop
  let a ← pop
  pushIf (!copySelector) a
  pure (V.equal a b)

/-- LOOP steps by one, +LOOP by what the body leaves. -/
def loopStep : LoopKind → Command Obj World Int
  | .plus1 => pure 1
  | .plusN => popInt

/-- One pass of a counted loop; it asks for more while the limit is not reached. -/
def countedPass (loopKind : LoopKind) (body : Command Obj World PUnit) :
    Command Obj World Bool := do
  inScope body
  let delta ← loopStep loopKind
  let done ← bumpLoop delta
  pure !done

def countedLoop (loopKind : LoopKind) (body : Command Obj World PUnit) :
    Command Obj World Nat := do
  let start ← popInt
  let limit ← popInt
  pushLoopFrame limit start
  let n ← Cmd.loop (countedPass loopKind body)
  popLoopFrame
  pure n

/-- `?DO` skips the loop when start and limit agree. -/
def enterLoop (V : Vm Obj World) (isQdo : Bool) (loop : Command Obj World Nat) :
    Command Obj World Nat :=
  if isQdo then do
    let start ← pop
    let limit ← pop
    if V.equal limit start then pure 0
    else do
      push limit
      push start
      loop
  else loop

def execLiteral (V : Vm Obj World) : Literal → Command Obj World PUnit
  | .int value _ => push (.int value)
  | .float value _ => push (.obj (V.float value))
  | .str value kind _ => do
    push (.obj (V.str value))
    match kind with
    | .dotQuote => V.reference (.qualifiedBuiltin "forth.runtime" "print-string")
    | .sQuote => V.reference (.qualifiedBuiltin "forth.runtime" "s-quote-runtime")
    | .sDollarQuote => pure ⟨⟩
    | .cQuote => pure ⟨⟩

def execWord (V : Vm Obj World) (r : Sema) (name : String) (span : Span) :
    Command Obj World PUnit :=
  match r.wordTargets.lookup span with
  | some t => V.reference t
  | none => onMachine (V.name name)

/-- The last name of the declaration takes the top of the stack. -/
def bindLocals : List LocalDecl → Command Obj World PUnit
  | [] => pure ⟨⟩
  | l :: names => do
    bindLocals names
    bindLocal (bindingName l.name)

section Exec
variable (V : Vm Obj World) (r : Sema) (R : Rules Obj World)

mutual
/-- Run one node; `rest` is the code behind it in the definition. -/
def execExpr (rest : List Expr) : Expr → Command Obj World PUnit
  | .lit l => execLiteral V l
  | .wordRef name span => execWord V r name span
  | .ifElse thenBody none _ => do
    if ← popFlag V then inScope (execSeq rest thenBody)
    else pure ⟨⟩
  | .ifElse thenBody (some elseBody) _ => do
    if ← popFlag V then inScope (execSeq rest thenBody)
    else inScope (execSeq rest elseBody)
  | .beginUntil body span => do
    let n ← Cmd.loop (inScope do
      execSeq [] body
      let b ← popFlag V
      pure !b)
    Cmd.guard fun _ => R.passes (.beginUntil body span) n
  | .beginWhileRepeat pred body span => do
    let n ← Cmd.loop (inScope do
      execSeq [] pred
      if ← popFlag V then
        inScope (execSeq [] body)
        pure true
      else pure false)
    Cmd.guard fun _ => R.passes (.beginWhileRepeat pred body span) n
  | .beginAgain body span => do
    let n ← Cmd.loop (inScope do
      execSeq [] body
      pure true)
    Cmd.guard fun _ => R.passes (.beginAgain body span) n
  | .doLoop isQdo body loopKind span => do
    let n ← enterLoop V isQdo (countedLoop loopKind (execSeq [] body))
    Cmd.guard fun _ => R.passes (.doLoop isQdo body loopKind span) n
  | .caseOf arms none _ =>
    execArms rest arms do
      Cmd.guard (R.noMatch (armsUseExit r.wordTargets arms) (pure ⟨⟩) rest)
      dropTop
  | .caseOf arms (some default) _ =>
    let exits := armsUseExit r.wordTargets arms || bodyUsesExit r.wordTargets default
    execArms rest arms do
      Cmd.guard (R.noMatch exits (execSeq rest default) rest)
      execSeq rest default
      dropTop
  | .tick name span => do
    let env ← getEnv
    push (.quot env [emitWord r name span])
  | .toValue name _ => do
    push (.obj (V.symbol (valueStorageName (lower name))))
    V.reference (.builtin "namespaces" "set-global")
  | .see name _ => do
    push (.obj (V.str (seeReport r.docs name)))
    V.reference (.qualifiedBuiltin "forth.runtime" "print-string")
  | .letForm form _ => onMachine (V.letForm form)
  | .locals names _ => bindLocals names

/-- The arms from the first on, with the selector on top; `base` is the no-match path. -/
def execArms (rest : List Expr) : List (CaseArm Expr) → Command Obj World PUnit →
    Command Obj World PUnit
  | [], base => base
  | ⟨matchExpr, body, _⟩ :: arms, base => do
    Cmd.guard (R.test (execSeq [] matchExpr))
    if ← armTest V R.copySelector (execSeq [] matchExpr) then
      inScope do
        dropTop
        execSeq rest body
    else inScope (execArms rest arms base)

/-- A variable kept in a global and the access behind it run as one word. -/
def execSeq (rest : List Expr) : List Expr → Command Obj World PUnit
  | [] => pure ⟨⟩
  | [e] => execExpr rest e
  | e :: next :: es =>
    match tryEmitNarrowSink r.escape e next with
    | some access => do
      run V access
      execSeq rest es
    | none => do
      execExpr (next :: es ++ rest) e
      execSeq rest (next :: es)
end

end Exec

section Wide
variable {V : Vm Obj World} {r : Sema} {R : Rules Obj World}

theorem execSeq_cons (hw : Wide r) (rest : List Expr) (e : Expr) (es : List Expr) :
    execSeq V r R rest (e :: es) = (do
      execExpr V r R (es ++ rest) e
      execSeq V r R rest es) := by
  cases es with
  | nil =>
    rw [execSeq, execSeq, List.nil_append]
    exact (Cmd.bind_pure _).symm
  | cons next es => rw [execSeq, tryEmitNarrowSink_wide hw]

theorem execSeq_append (hw : Wide r) (rest xs ys : List Expr) :
    execSeq V r R rest (xs ++ ys) = (do
      execSeq V r R (ys ++ rest) xs
      execSeq V r R rest ys) := by
  induction xs with
  | nil => rw [execSeq, pure_bind, List.nil_append]
  | cons x xs ih =>
    rw [List.cons_append, execSeq_cons hw, ih, execSeq_cons hw, bind_assoc, List.append_assoc]

end Wide

/-- What emission reads of a program whose storage is all wide and that nothing documents. -/
def bareSema (wordTargets : Dict Span Target) : Sema where
  program := ⟨[]⟩
  wordTargets := wordTargets
  userWords := []
  templates := []
  values := []
  classSlots := []
  userEffects := []
  bodyEffects := []
  effectErrors := []
  escape := []
  docs := []

/-- The place of the `n`-th token of a one-line source. -/
def tokenSpan (n : Nat) : Span := Span.point ⟨1, n, n⟩

end FactorForth.Semantics
