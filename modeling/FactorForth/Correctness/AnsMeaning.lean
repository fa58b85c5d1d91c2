import FactorForth.Correctness.ControlFlow

/-! The emitted code against the ANS meaning of the source. The two differ where the code before OF
notices the copy of the selector that lies on top of the selector itself. -/

namespace FactorForth.Correctness
open FactorForth.Library FactorForth.Compiler FactorForth.Semantics
variable {Obj World : Type} (V : Vm Obj World) (r : Sema)

/-! Outcomes are the same under rules that demand less. -/

/-- Each demand of `R'` and each test under it agree with those of `R` away from faults. -/
structure Agree (R R' : Rules Obj World) : Prop where
  passes : ∀ e n, Cmd.SafeEq (Cmd.guard fun _ : State Obj World => R.passes e n)
    (Cmd.guard fun _ => R'.passes e n)
  test : ∀ c c', Cmd.SafeEq c c' →
    Cmd.SafeEq (Cmd.guard (R.test c) >>= fun _ => armTest V R.copySelector c)
      (Cmd.guard (R'.test c') >>= fun _ => armTest V R'.copySelector c')
  noMatch : ∀ exits c c' rest rest',
    Cmd.SafeEq (Cmd.guard (R.noMatch exits c rest)) (Cmd.guard (R'.noMatch exits c' rest'))

section Agree
variable {V r} {R R' : Rules Obj World}

theorem inScope_safe {α : Type} {c c' : Command Obj World α} (h : Cmd.SafeEq c c') :
    Cmd.SafeEq (inScope c) (inScope c') :=
  (Cmd.SafeEq.refl _).bind fun _ => h.bind fun _ => Cmd.SafeEq.refl _

theorem guard_safe {α : Type} (p : State Obj World → Prop) (c c' : Command Obj World α)
    (h : Cmd.SafeEq c c') : Cmd.SafeEq (Cmd.guard p >>= fun _ => c) c' := by
  intro s hs out
  have hp := Cmd.guard_bind_fault hs
  rw [Cmd.guard_bind_ok hp] at hs ⊢
  exact h s hs out

theorem armTest_safe {c c' : Command Obj World PUnit} (h : Cmd.SafeEq c c') (copySelector : Bool) :
    Cmd.SafeEq (armTest V copySelector c) (armTest V copySelector c') :=
  (Cmd.SafeEq.refl _).bind fun _ => (Cmd.SafeEq.refl _).bind fun _ =>
    (Cmd.SafeEq.refl _).bind fun _ => h.bind fun _ => Cmd.SafeEq.refl _

theorem countedLoop_safe {c c' : Command Obj World PUnit} (h : Cmd.SafeEq c c')
    (loopKind : LoopKind) : Cmd.SafeEq (countedLoop loopKind c) (countedLoop loopKind c') := by
  have hpass : Cmd.SafeEq (countedPass loopKind c) (countedPass loopKind c') :=
    (inScope_safe h).bind fun _ => Cmd.SafeEq.refl _
  exact (Cmd.SafeEq.refl _).bind fun _ => (Cmd.SafeEq.refl _).bind fun _ =>
    (Cmd.SafeEq.refl _).bind fun _ => hpass.loop.bind fun _ => Cmd.SafeEq.refl _

theorem enterLoop_safe {c c' : Command Obj World Nat} (h : Cmd.SafeEq c c') (isQdo : Bool) :
    Cmd.SafeEq (enterLoop V isQdo c) (enterLoop V isQdo c') := by
  cases isQdo with
  | false => exact h
  | true =>
    exact (Cmd.SafeEq.refl _).bind fun _ => (Cmd.SafeEq.refl _).bind fun _ =>
      Cmd.SafeEq.ite (Cmd.SafeEq.refl _) ((Cmd.SafeEq.refl _).bind fun _ =>
        (Cmd.SafeEq.refl _).bind fun _ => h)

theorem Agree.of_free (copySelector : Bool) (h : ∀ c c', Cmd.SafeEq c c' →
    Cmd.SafeEq (Cmd.guard (R.test c) >>= fun _ => armTest V R.copySelector c)
      (armTest V copySelector c')) : Agree V R (Rules.free copySelector) := by
  refine ⟨fun e n => Cmd.SafeEq.guard fun _ => trivial, fun c c' hc => ?_,
    fun exits c c' rest rest' => Cmd.SafeEq.guard fun _ => trivial⟩
  have hfree := Cmd.guard_of (p := (Rules.free copySelector : Rules Obj World).test c')
    fun _ => trivial
  rw [hfree, pure_bind]
  exact h c c' hc

mutual
theorem execExpr_safe (h : Agree V R R') (rest rest' : List Expr) : ∀ e : Expr,
    Cmd.SafeEq (execExpr V r R rest e) (execExpr V r R' rest' e)
  | .lit l => by
    rw [execExpr, execExpr]
    exact Cmd.SafeEq.refl _
  | .wordRef name span => by
    rw [execExpr, execExpr]
    exact Cmd.SafeEq.refl _
  | .ifElse thenBody none _ => by
    rw [execExpr, execExpr]
    exact (Cmd.SafeEq.refl _).bind fun _ =>
      (inScope_safe (execSeq_safe h rest rest' thenBody)).ite (Cmd.SafeEq.refl _)
  | .ifElse thenBody (some elseBody) _ => by
    rw [execExpr, execExpr]
    exact (Cmd.SafeEq.refl _).bind fun _ =>
      (inScope_safe (execSeq_safe h rest rest' thenBody)).ite
        (inScope_safe (execSeq_safe h rest rest' elseBody))
  | .beginUntil body _ => by
    rw [execExpr, execExpr]
    exact (inScope_safe ((execSeq_safe h [] [] body).bind fun _ => Cmd.SafeEq.refl _)).loop.bind
      fun n => h.passes _ n
  | .beginWhileRepeat pred body _ => by
    rw [execExpr, execExpr]
    exact (inScope_safe ((execSeq_safe h [] [] pred).bind fun _ => (Cmd.SafeEq.refl _).bind
      fun _ => ((inScope_safe (execSeq_safe h [] [] body)).bind fun _ =>
        Cmd.SafeEq.refl _).ite (Cmd.SafeEq.refl _))).loop.bind fun n => h.passes _ n
  | .beginAgain body _ => by
    rw [execExpr, execExpr]
    exact (inScope_safe ((execSeq_safe h [] [] body).bind fun _ => Cmd.SafeEq.refl _)).loop.bind
      fun n => h.passes _ n
  | .doLoop isQdo body loopKind _ => by
    rw [execExpr, execExpr]
    exact (enterLoop_safe (countedLoop_safe (execSeq_safe h [] [] body) loopKind) isQdo).bind
      fun n => h.passes _ n
  | .caseOf arms none _ => by
    rw [execExpr, execExpr]
    exact execArms_safe h rest rest' arms _ _
      ((h.noMatch _ _ _ rest rest').bind fun _ => Cmd.SafeEq.refl _)
  | .caseOf arms (some default) _ => by
    rw [execExpr, execExpr]
    exact execArms_safe h rest rest' arms _ _
      ((h.noMatch _ _ _ rest rest').bind fun _ => (execSeq_safe h rest rest' default).bind
        fun _ => Cmd.SafeEq.refl _)
  | .tick name span => by
    rw [execExpr, execExpr]
    exact Cmd.SafeEq.refl _
  | .toValue name _ => by
    rw [execExpr, execExpr]
    exact Cmd.SafeEq.refl _
  | .see name _ => by
    rw [execExpr, execExpr]
    exact Cmd.SafeEq.refl _
  | .letForm form _ => by
    rw [execExpr, execExpr]
    exact Cmd.SafeEq.refl _
  | .locals names _ => by
    rw [execExpr, execExpr]
    exact Cmd.SafeEq.refl _

theorem execArms_safe (h : Agree V R R') (rest rest' : List Expr) :
    ∀ (arms : List (CaseArm Expr)) (base base' : Command Obj World PUnit), Cmd.SafeEq base base' →
    Cmd.SafeEq (execArms V r R rest arms base) (execArms V r R' rest' arms base')
  | [], base, base', hbase => by
    rw [execArms, execArms]
    exact hbase
  | ⟨matchExpr, body, _⟩ :: arms, base, base', hbase => by
    have htest := h.test _ _ (execSeq_safe h [] [] matchExpr)
    have hbody := execSeq_safe h rest rest' body
    have harms := execArms_safe h rest rest' arms base base' hbase
    rw [execArms, execArms, ← bind_assoc, ← bind_assoc]
    exact htest.bind fun _ =>
      (inScope_safe ((Cmd.SafeEq.refl _).bind fun _ => hbody)).ite (inScope_safe harms)

theorem execSeq_safe (h : Agree V R R') (rest rest' : List Expr) : ∀ es : List Expr,
    Cmd.SafeEq (execSeq V r R rest es) (execSeq V r R' rest' es)
  | [] => by
    rw [execSeq, execSeq]
    exact Cmd.SafeEq.refl _
  | [e] => by
    rw [execSeq, execSeq]
    exact execExpr_safe h rest rest' e
  | e :: next :: es => by
    rw [execSeq, execSeq]
    cases tryEmitNarrowSink r.escape e next with
    | some access => exact (Cmd.SafeEq.refl _).bind fun _ => execSeq_safe h rest rest' es
    | none =>
      exact (execExpr_safe h (next :: es ++ rest) (next :: es ++ rest') e).bind fun _ =>
        execSeq_safe h rest rest' (next :: es)
end

end Agree

/-! Tests of a CASE that do not notice the copy. -/

/-- The same end with the item under the top doubled. -/
def underTop : Out (State Obj World) PUnit → Out (State Obj World) PUnit
  | .ok _ t => .ok ⟨⟩ { t with stack := match t.stack with
      | m :: v :: st => m :: v :: v :: st
      | st => st }
  | out => out

/-- A second selector on the stack changes nothing in what `c` does but that it lies there. -/
def Steady (c : Command Obj World PUnit) (s : State Obj World) : Prop :=
  ∀ v st, s.stack = v :: st → ∀ out,
    c { s with stack := v :: v :: st } out ↔ ∃ out', c s out' ∧ out = underTop out'

/-- The ANS rules, the code before each OF being held not to notice a copy of the selector. -/
def steadyRules : Rules Obj World := { Rules.free false with test := Steady }

section Steady
variable {V} {c c' : Command Obj World PUnit} {s : State Obj World}

theorem armTest_false_apply {v : Value Obj} {st : List (Value Obj)} (h : s.stack = v :: st) :
    armTest V false c s = (do
      c
      let b ← pop
      let a ← pop
      push a
      pure (V.equal a b)) s := by
  unfold armTest
  rw [pop_bind h, push_bind]
  simp only [pushIf, Bool.false_eq_true, if_false, pure_bind, Bool.not_false, if_true, ← h]

theorem armTest_true_apply {v : Value Obj} {st : List (Value Obj)} (h : s.stack = v :: st) :
    armTest V true c s = (do
      c
      let b ← pop
      let a ← pop
      pure (V.equal a b)) { s with stack := v :: v :: st } := by
  unfold armTest
  rw [pop_bind h, push_bind]
  simp only [pushIf, if_true, pure_bind, Bool.not_true, Bool.false_eq_true, if_false]
  rw [push_bind]

/-- Two pops over the doubled item leave what two pops and a push leave over the single one. -/
theorem compare_underTop (t t' : State Obj World) (out : Out (State Obj World) Bool)
    (ht : underTop (.ok ⟨⟩ t) = .ok ⟨⟩ t') :
    (do
      let b ← pop
      let a ← pop
      pure (V.equal a b)) t' out ↔
    (do
      let b ← pop
      let a ← pop
      push a
      pure (V.equal a b)) t out := by
  cases ht
  cases h : t.stack with
  | nil => exact iff_of_false (pop_bind_nil rfl _ out) (pop_bind_nil h _ out)
  | cons m st =>
    rw [pop_bind h]
    cases st with
    | nil =>
      rw [pop_bind rfl]
      exact iff_of_false (pop_bind_nil rfl _ out) (pop_bind_nil rfl _ out)
    | cons v st => rw [pop_bind rfl, pop_bind rfl, pop_bind rfl, push_bind]

theorem Steady.armTest (h : Steady c s) (out : Out (State Obj World) Bool) :
    armTest V true c s out ↔ armTest V false c s out := by
  cases hs : s.stack with
  | nil => exact iff_of_false (pop_bind_nil hs _ out) (pop_bind_nil hs _ out)
  | cons v st =>
    have hc := h v st hs
    rw [armTest_true_apply hs, armTest_false_apply hs, Cmd.bind_apply, Cmd.bind_apply]
    refine or_congr ⟨?_, ?_⟩ (or_congr (exists_congr fun t => and_congr_right fun _ => ?_)
      (and_congr_right fun _ => ?_))
    · rintro ⟨a', t', ht', hout⟩
      obtain ⟨out', hout', heq⟩ := (hc _).1 ht'
      cases out' with
      | ok a t => exact ⟨a, t, hout', (compare_underTop t t' out heq.symm).1 hout⟩
      | ret t => cases heq
      | fault => cases heq
    · rintro ⟨a, t, ht, hout⟩
      exact ⟨a, _, (hc _).2 ⟨_, ht, rfl⟩, (compare_underTop t _ out rfl).2 hout⟩
    · rw [hc]
      constructor
      · rintro ⟨out', hout', heq⟩
        cases out' with
        | ok a t => cases heq
        | ret t =>
          cases heq
          exact hout'
        | fault => cases heq
      · exact fun ht => ⟨_, ht, rfl⟩
    · rw [hc]
      constructor
      · rintro ⟨out', hout', heq⟩
        cases out' with
        | ok a t => cases heq
        | ret t => cases heq
        | fault => exact hout'
      · exact fun ht => ⟨_, ht, rfl⟩

theorem steady_test_safe (h : Cmd.SafeEq c c') :
    Cmd.SafeEq (Cmd.guard (Steady c) >>= fun _ => armTest V false c) (armTest V true c') := by
  intro s hs out
  have hsteady : Steady c s := Cmd.guard_bind_fault hs
  rw [Cmd.guard_bind_ok hsteady] at hs ⊢
  rw [← hsteady.armTest] at hs ⊢
  exact armTest_safe h true s hs out

/-- A match value that is pushed without a look at the stack. -/
theorem steady_push (v : Value Obj) : Steady (push v : Command Obj World PUnit) s := by
  intro sel st hs out
  rw [push_apply, push_apply]
  constructor
  · intro h
    cases h
    exact ⟨_, rfl, by simp only [underTop, hs]⟩
  · rintro ⟨out', h, rfl⟩
    cases h
    simp only [underTop, hs]
    rfl

end Steady

/-- The emitted code of a body runs as its source, the code before each OF running over a copy of
the selector; where no test of the run notices the copy, that is the ANS meaning. -/
theorem emitExprs_ans (es : List Expr) (s : State Obj World) :
    (∀ out, run V (emitExprs r es) s out ↔ execSeq V r (Rules.free true) [] es s out) ∧
    (¬ execSeq V r steadyRules [] es s .fault →
      ∀ out, run V (emitExprs r es) s out ↔ execSeq V r (Rules.free false) [] es s out) := by
  rw [run_emitExprs V r [] es]
  refine ⟨fun out => Iff.rfl, fun hs out => ?_⟩
  have hcopy : Agree V steadyRules (Rules.free true) :=
    Agree.of_free true fun c c' h => steady_test_safe h
  have hans : Agree V steadyRules (Rules.free false) :=
    Agree.of_free false fun c c' h => guard_safe _ _ _ (armTest_safe h false)
  exact (execSeq_safe hcopy [] [] es s hs out).trans (execSeq_safe hans [] [] es s hs out).symm

/-- An arm with an integer before its OF, on the core machine. -/
theorem execArms_core {r : Sema} {R : Rules Unit Unit} {m v : Int} {st : List (Value Unit)}
    {sp sp' : Span} {arms : List (CaseArm Expr)} (rest body : List Expr)
    (base : Command Unit Unit PUnit)
    (htest : R.test (push (.int m)) (coreState (.int v :: st))) :
    execArms coreVm r R rest (⟨[.lit (.int m sp)], body, sp'⟩ :: arms) base
        (coreState (.int v :: st)) =
      if v = m then inScope (dropTop >>= fun _ => execSeq coreVm r R rest body)
        (coreState (.int v :: st))
      else inScope (execArms coreVm r R rest arms base) (coreState (.int v :: st)) := by
  have hmatch : execSeq coreVm r R [] [.lit (.int m sp)] = push (.int m) := by
    rw [execSeq, execExpr, execLiteral]
  rw [execArms, hmatch]
  refine Eq.trans (Cmd.guard_bind_ok htest _) ?_
  have htest' : ∀ f : Bool → Command Unit Unit PUnit,
      (armTest coreVm R.copySelector (push (.int m)) >>= f) (coreState (.int v :: st)) =
        f (v == m) (coreState (.int v :: st)) := by
    intro f
    unfold armTest
    cases R.copySelector with
    | true =>
      simp only [pushIf, if_true, Bool.not_true, Bool.false_eq_true, if_false, bind_assoc,
        pop_core, push_core, pure_bind]
      rfl
    | false =>
      simp only [pushIf, if_true, Bool.not_false, Bool.false_eq_true, if_false, bind_assoc,
        pop_core, push_core, pure_bind]
      rfl
  rw [htest']
  by_cases hvm : v = m
  · rw [if_pos hvm, if_pos (beq_iff_eq.2 hvm)]
  · rw [if_neg hvm, if_neg fun h => hvm (beq_iff_eq.1 h)]

/-- `case 5 of 1 endof endcase`. -/
def caseFive : List Expr :=
  [.caseOf [⟨[.lit (.int 5 (tokenSpan 2))], [.lit (.int 1 (tokenSpan 4))], tokenSpan 3⟩] none
    (tokenSpan 1)]

theorem exec_caseFive (R : Rules Unit Unit)
    (htest : R.test (push (.int 5)) (coreState [.int 5])) :
    execSeq coreVm (bareSema []) R [] caseFive (coreState [.int 5]) =
      (pure ⟨⟩ : Command Unit Unit PUnit) (coreState [.int 1]) := by
  rw [caseFive, execSeq, execExpr, execArms_core _ _ _ htest, if_pos rfl]
  refine inScope_core ?_
  unfold dropTop
  rw [bind_assoc, pop_core, pure_bind, execSeq, execExpr]
  exact push_apply _ _

theorem emitExprs_ans_caseFive :
    run coreVm (emitExprs (bareSema []) caseFive) (coreState [.int 5])
      (.ok ⟨⟩ (coreState [.int 1])) := by
  refine ((emitExprs_ans coreVm (bareSema []) caseFive (coreState [.int 5])).2 ?_ _).2 ?_
  · rw [exec_caseFive steadyRules (steady_push _)]
    exact fun h => nomatch h
  · rw [exec_caseFive (Rules.free false) trivial]
    rfl

section Over
variable (R : Rules Unit Unit)

/-- `case over of 1 endof endcase`. -/
def caseOver : List Expr :=
  [.caseOf [⟨[.wordRef "over" (tokenSpan 2)], [.lit (.int 1 (tokenSpan 4))], tokenSpan 3⟩] none
    (tokenSpan 1)]

def caseOverSema : Sema := bareSema [(tokenSpan 2, .builtin "kernel" "over")]

theorem exec_over (a b : Value Unit) (st : List (Value Unit)) :
    execSeq coreVm caseOverSema R [] [.wordRef "over" (tokenSpan 2)] (coreState (a :: b :: st)) =
      (pure ⟨⟩ : Command Unit Unit PUnit) (coreState (b :: a :: b :: st)) := by
  rw [execSeq, execExpr]
  exact reference_core (.builtin "kernel" "over") rfl

theorem exec_caseOver_copy :
    execSeq coreVm caseOverSema (Rules.free true) [] caseOver (coreState [.int 5, .int 7]) =
      (pure ⟨⟩ : Command Unit Unit PUnit) (coreState [.int 1, .int 7]) := by
  rw [caseOver, execSeq, execExpr, execArms]
  refine Eq.trans (Cmd.guard_bind_ok trivial _) ?_
  unfold armTest
  simp only [Rules.free, pushIf, if_true, Bool.not_true, Bool.false_eq_true, if_false, bind_assoc,
    pop_core, push_core, pure_bind]
  rw [Cmd.bind_of_pure (exec_over _ _ _ _), pop_core, pop_core]
  refine inScope_core ?_
  unfold dropTop
  rw [bind_assoc, pop_core, pure_bind, execSeq, execExpr]
  exact push_apply _ _

theorem exec_caseOver_ans :
    execSeq coreVm caseOverSema (Rules.free false) [] caseOver (coreState [.int 5, .int 7]) =
      (pure ⟨⟩ : Command Unit Unit PUnit) (coreState [.int 7]) := by
  rw [caseOver, execSeq, execExpr, execArms]
  refine Eq.trans (Cmd.guard_bind_ok trivial _) ?_
  unfold armTest
  simp only [Rules.free, pushIf, if_true, Bool.not_false, Bool.false_eq_true, if_false, bind_assoc,
    pop_core, push_core, pure_bind]
  rw [Cmd.bind_of_pure (exec_over _ _ _ _), pop_core, pop_core, push_core]
  refine inScope_core ?_
  rw [execArms]
  refine Eq.trans (Cmd.guard_bind_ok trivial _) ?_
  exact pop_core _ _ _

/-- On `7 5` the emitted `case over of 1 endof endcase` takes its arm, the source does not. -/
theorem caseOver_not_ans : ¬ ∀ (V : Vm Unit Unit) (r : Sema) (es : List Expr)
    (s : State Unit Unit) (out : Out (State Unit Unit) PUnit),
    run V (emitExprs r es) s out ↔ execSeq V r (Rules.free false) [] es s out := by
  intro h
  have hrun := h coreVm caseOverSema caseOver (coreState [.int 5, .int 7])
    (.ok ⟨⟩ (coreState [.int 1, .int 7]))
  rw [run_emitExprs coreVm caseOverSema [] caseOver, exec_caseOver_copy, exec_caseOver_ans] at hrun
  have hout : Out.ok PUnit.unit (coreState [.int 1, .int 7]) = .ok ⟨⟩ (coreState [.int 7]) :=
    hrun.1 rfl
  simp only [Out.ok.injEq, coreState, true_and, State.mk.injEq, Machine.mk.injEq] at hout
  simp at hout

end Over

end FactorForth.Correctness
