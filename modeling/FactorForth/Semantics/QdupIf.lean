import FactorForth.Compiler.LowerQdup
import FactorForth.Semantics.Forth

/-! The meaning of a source that still has its `?DUP IF`: ANS `?DUP` doubles the top of the stack
unless it is zero, and the IF behind it takes its flag. -/

namespace FactorForth.Semantics
open FactorForth.Library FactorForth.Compiler
variable {Obj World : Type}

/-- ANS `?DUP ( x -- 0 | x x )`. -/
def ansQdup (V : Vm Obj World) : Command Obj World PUnit := do
  let v ← pop
  push v
  pushIf (!V.zero v) v

/-- IF with its two branches. -/
def ansIf (V : Vm Obj World) (thenBody elseBody : Command Obj World PUnit) :
    Command Obj World PUnit := do
  if ← popFlag V then inScope thenBody
  else inScope elseBody

section Exec
variable (V : Vm Obj World) (r : Sema) (copySelector : Bool)

mutual
/-- Run one node; what has no body of its own runs as it does behind the pass. -/
def ansExpr : Expr → Command Obj World PUnit
  | .ifElse thenBody none _ => ansIf V (ansSeq thenBody) (pure ⟨⟩)
  | .ifElse thenBody (some elseBody) _ => ansIf V (ansSeq thenBody) (ansSeq elseBody)
  | .beginUntil body _ => do
    let _ ← Cmd.loop (inScope do
      ansSeq body
      let b ← popFlag V
      pure !b)
    pure ⟨⟩
  | .beginWhileRepeat pred body _ => do
    let _ ← Cmd.loop (inScope do
      ansSeq pred
      if ← popFlag V then
        inScope (ansSeq body)
        pure true
      else pure false)
    pure ⟨⟩
  | .beginAgain body _ => do
    let _ ← Cmd.loop (inScope do
      ansSeq body
      pure true)
    pure ⟨⟩
  | .doLoop isQdo body loopKind _ => do
    let _ ← enterLoop V isQdo (countedLoop loopKind (ansSeq body))
    pure ⟨⟩
  | .caseOf arms none _ => ansArms arms dropTop
  | .caseOf arms (some default) _ =>
    ansArms arms do
      ansSeq default
      dropTop
  | e => execExpr V r (Rules.free copySelector) [] e

def ansArms : List (CaseArm Expr) → Command Obj World PUnit → Command Obj World PUnit
  | [], base => base
  | ⟨matchExpr, body, _⟩ :: arms, base => do
    if ← armTest V copySelector (ansSeq matchExpr) then
      inScope do
        dropTop
        ansSeq body
    else inScope (ansArms arms base)

/-- `?DUP` in front of an IF is ANS `?DUP`, whatever words there are. -/
def ansSeq : List Expr → Command Obj World PUnit
  | [] => pure ⟨⟩
  | e :: es =>
    match isQdupWord e, es with
    | true, .ifElse thenBody elseBody _ :: rest => do
      ansQdup V
      ansIf V (ansSeq thenBody) (match elseBody with
        | none => pure ⟨⟩
        | some elseBody => ansSeq elseBody)
      ansSeq rest
    | _, es => do
      ansExpr e
      ansSeq es
end

end Exec

/-- The two words that the pass inserts, as Factor documents them. -/
structure StackWords (V : Vm Obj World) : Prop where
  dup : V.reference (.builtin "kernel" "dup") = do
    let v ← pop
    push v
    push v
  drop : V.reference (.builtin "kernel" "drop") = dropTop

/-- `DUP IF … ELSE DROP … THEN` is `?DUP IF … ELSE … THEN`. -/
theorem qdupIf_eq {V : Vm Obj World} (h : StackWords V) (thenBody elseBody : Command Obj World PUnit) :
    (do
      V.reference (.builtin "kernel" "dup")
      ansIf V thenBody (do
        V.reference (.builtin "kernel" "drop")
        elseBody)) =
    (do
      ansQdup V
      ansIf V thenBody elseBody) := by
  rw [h.dup, h.drop]
  refine Cmd.ext fun s out => ?_
  cases hStack : s.stack with
  | nil =>
    simp only [ansQdup, bind_assoc]
    exact iff_of_false (pop_bind_nil hStack _ out) (pop_bind_nil hStack _ out)
  | cons v st =>
    simp only [ansQdup, ansIf, popFlag, bind_assoc, pure_bind]
    rw [pop_bind hStack, pop_bind hStack, push_bind, push_bind, push_bind, pop_bind rfl]
    cases hZero : V.zero v with
    | true =>
      -- the copy is taken by IF, and what is left by DROP
      simp only [Bool.not_true, pushIf, Bool.false_eq_true, if_false, pure_bind]
      rw [pop_bind rfl]
      simp only [hZero, Bool.not_true, Bool.false_eq_true, if_false]
      unfold inScope dropTop
      simp only [bind_assoc, pure_bind]
      rw [getEnv_bind, pop_bind rfl, getEnv_bind]
    | false =>
      simp only [Bool.not_false, pushIf, if_true]
      rw [push_bind, pop_bind rfl]
      simp only [hZero, Bool.not_false, if_true]

/-- The core machine has both words. -/
theorem coreVm_stackWords : StackWords coreVm := by
  have hWord : ∀ name (c : Command Unit Unit PUnit),
      (∀ s out, c s out ↔ ∃ st', coreStep (.builtin "kernel" name) s.stack = some st' ∧
        out = .ok ⟨⟩ { s with stack := st' }) →
      coreVm.reference (.builtin "kernel" name) = c := by
    intro name c hc
    refine Cmd.ext fun s out => ?_
    rw [hc]
    have hRef : coreVm.reference (.builtin "kernel" name) =
        onMachine (coreVm.word (.builtin "kernel" name)) := by
      unfold Vm.reference
      exact if_neg Target.noConfusion
    rw [hRef]
    constructor
    · rintro ⟨t, ⟨⟨hStack, hFrames⟩, hEnv⟩, rfl⟩
      refine ⟨t.stack, hStack, ?_⟩
      obtain ⟨⟨stack, frames, world⟩, env⟩ := t
      obtain rfl : frames = s.frames := hFrames
      obtain rfl : env = s.env := hEnv
      rfl
    · rintro ⟨st', hStack, rfl⟩
      exact ⟨{ s with stack := st' }, ⟨⟨hStack, rfl⟩, rfl⟩, rfl⟩
  constructor
  · apply hWord
    intro s out
    cases hStack : s.stack with
    | nil =>
      refine iff_of_false (pop_bind_nil hStack _ out) ?_
      rintro ⟨st', hStep, -⟩
      cases hStep
    | cons v st =>
      rw [pop_bind hStack, push_bind, push_apply]
      constructor
      · rintro rfl
        exact ⟨_, rfl, rfl⟩
      · rintro ⟨st', hStep, rfl⟩
        cases hStep
        rfl
  · apply hWord
    intro s out
    unfold dropTop
    cases hStack : s.stack with
    | nil =>
      refine iff_of_false (pop_bind_nil hStack _ out) ?_
      rintro ⟨st', hStep, -⟩
      cases hStep
    | cons v st =>
      rw [pop_bind hStack]
      constructor
      · rintro rfl
        exact ⟨_, rfl, rfl⟩
      · rintro ⟨st', hStep, rfl⟩
        cases hStep
        rfl

end FactorForth.Semantics
