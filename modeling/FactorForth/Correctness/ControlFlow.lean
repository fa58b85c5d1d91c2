import FactorForth.Semantics.Forth
import FactorForth.Semantics.Combinators

/-! The emitted combinators run as the source does, with every test of a CASE made over a copy of
the selector. -/

namespace FactorForth.Correctness
open FactorForth.Library FactorForth.Compiler FactorForth.Semantics
variable {Obj World : Type} (V : Vm Obj World) (r : Sema)

theorem guard_free {p : State Obj World → Prop} (h : ∀ s, p s) (c : Command Obj World PUnit) :
    (Cmd.guard p >>= fun _ => c) = c := by
  rw [Cmd.guard_of h, pure_bind]

theorem loop_free (c : Command Obj World Nat) (e : Expr) :
    (c >>= fun n => Cmd.guard fun _ => (Rules.free true : Rules Obj World).passes e n) =
      (c >>= fun _ => pure ⟨⟩) :=
  congrArg _ (funext fun _ => Cmd.guard_of fun _ => trivial)

theorem countedLoop_eq (loopKind : LoopKind) (q : List Tok) :
    run V (doLoopCode (q ++ if loopKind = .plus1 then [.int 1] else [])) =
      (countedLoop loopKind (run V q) >>= fun _ => pure ⟨⟩) := by
  have hpass : ∀ loopKind : LoopKind, (do
      inScope (run V (q ++ if loopKind = .plus1 then [.int 1] else []))
      let delta ← popInt
      let done ← bumpLoop delta
      pure !done) = countedPass loopKind (run V q) := by
    intro loopKind
    cases loopKind with
    | plus1 =>
      rw [if_pos rfl, run_append, run_singleton, stepTok]
      rw [inScope_push (run V q) fun _ => .int 1]
      simp only [countedPass, loopStep, bind_assoc, push_popInt, pure_bind]
    | plusN =>
      rw [if_neg (by decide), List.append_nil]
      rfl
  rw [run_doLoopCode, hpass]
  unfold countedLoop Cmd.rounds
  simp only [bind_assoc, pure_bind, bind_pure_unit]

theorem countedLoop_keepsEnv (loopKind : LoopKind) (body : Command Obj World PUnit) :
    KeepsEnv (countedLoop loopKind body) := by
  have hpass : KeepsEnv (countedPass loopKind body) := by
    refine (KeepsEnv.inScope _).bind fun _ => KeepsEnv.bind ?_ fun delta =>
      (KeepsEnv.bumpLoop delta).bind fun _ => KeepsEnv.pure _
    cases loopKind with
    | plus1 => exact KeepsEnv.pure _
    | plusN => exact KeepsEnv.popInt
  exact KeepsEnv.popInt.bind fun start => KeepsEnv.popInt.bind fun limit =>
    (KeepsEnv.pushLoopFrame limit start).bind fun _ => hpass.loop.bind fun _ =>
      KeepsEnv.popLoopFrame.bind fun _ => KeepsEnv.pure _

theorem run_emitLiteral (l : Literal) : run V (emitLiteral l) = execLiteral V l := by
  cases l with
  | int value span => exact run_singleton V _
  | float value span => exact run_singleton V _
  | str value kind span =>
    cases kind with
    | dotQuote => rw [emitLiteral, run_cons, run_singleton]; rfl
    | sQuote => rw [emitLiteral, run_cons, run_singleton]; rfl
    | sDollarQuote =>
      rw [emitLiteral, run_singleton]
      exact (bind_pure_unit).symm
    | cQuote =>
      rw [emitLiteral, run_singleton]
      exact (bind_pure_unit).symm

theorem stepTok_emitWord (call : Caller Obj World) (name : String) (span : Span) :
    stepTok V call (emitWord r name span) = execWord V r name span := by
  unfold emitWord execWord
  cases r.wordTargets.lookup span <;> rfl

theorem run_emitLocals (names : List LocalDecl) :
    run V (emitLocals names) = bindLocals names := by
  unfold emitLocals
  induction names with
  | nil => exact run_nil V
  | cons l names ih =>
    rw [List.reverse_cons, List.map_append, run_append, ih]
    exact congrArg _ (funext fun _ => run_singleton V _)

theorem run_until (body : List Tok) :
    run V [.quot (body ++ [.prim .zeroP]), .prim .loop] = Cmd.rounds (inScope do
      run V body
      let b ← popFlag V
      pure !b) := by
  refine run_loop_of ?_
  rw [run_append, run_zeroP, run_nil]
  simp only [popFlag, bind_assoc, pure_bind, Bool.not_not, bind_pure_unit]

theorem run_again (body : List Tok) :
    run V [.quot (body ++ [.prim .t]), .prim .loop] = Cmd.rounds (inScope do
      run V body
      pure true) := by
  refine run_loop_of ?_
  rw [run_append, run_singleton]
  simp only [bind_assoc, pure_bind]
  rfl

theorem run_while (pred body : List Tok) :
    run V [.quot (pred ++ [.prim .zeroP, .quot [.prim .f], .quot (body ++ [.prim .t]),
      .prim .ifQ]), .prim .loop] = Cmd.rounds (inScope do
      run V pred
      if ← popFlag V then
        inScope (run V body)
        pure true
      else pure false) := by
  refine run_loop_of ?_
  have hf : inScope (run V [.prim .f]) = push (.bool false) := by
    rw [run_singleton]
    exact (KeepsEnv.push _).inScope_eq
  have ht := inScope_run_flag V body .t true rfl
  rw [run_append, run_zeroP, run_if, hf, ht]
  simp only [popFlag, bind_assoc, pure_bind, push_pop, truthy_bool]
  refine congrArg _ (funext fun _ => congrArg _ (funext fun v => ?_))
  cases V.zero v with
  | true =>
    simp only [if_true, Bool.not_true, Bool.false_eq_true, if_false, pure_bind]
  | false => simp only [Bool.false_eq_true, if_false, Bool.not_false, if_true, bind_assoc, pure_bind]

mutual
theorem run_emitExpr (rest : List Expr) : ∀ e : Expr,
    run V (emitExpr r e) = execExpr V r (Rules.free true) rest e
  | .lit l => by rw [emitExpr, execExpr, run_emitLiteral]
  | .wordRef name span => by rw [emitExpr, execExpr, run_singleton, stepTok_emitWord]
  | .ifElse thenBody none _ => by
    rw [emitExpr, execExpr, run_zeroP, run_unless, ← run_emitExprs rest thenBody]
    simp only [popFlag, bind_assoc, pure_bind, push_pop, truthy_bool]
    refine congrArg _ (funext fun v => ?_)
    cases V.zero v <;> rfl
  | .ifElse thenBody (some elseBody) _ => by
    rw [emitExpr, execExpr, run_zeroP, run_if, ← run_emitExprs rest thenBody,
      ← run_emitExprs rest elseBody]
    simp only [popFlag, bind_assoc, pure_bind, push_pop, truthy_bool]
    refine congrArg _ (funext fun v => ?_)
    cases V.zero v <;> rfl
  | .beginUntil body _ => by
    rw [emitExpr, execExpr, run_until, loop_free, ← run_emitExprs [] body]
    rfl
  | .beginWhileRepeat pred body _ => by
    rw [emitExpr, execExpr, run_while, loop_free, ← run_emitExprs [] pred,
      ← run_emitExprs [] body]
    rfl
  | .beginAgain body _ => by
    rw [emitExpr, execExpr, run_again, loop_free, ← run_emitExprs [] body]
    rfl
  | .doLoop isQdo body loopKind _ => by
    have hloop := countedLoop_eq V loopKind (emitExprs r body)
    have hkeeps : KeepsEnv (countedLoop loopKind (run V (emitExprs r body)) >>= fun _ =>
        (pure ⟨⟩ : Command Obj World PUnit)) :=
      (countedLoop_keepsEnv loopKind _).bind fun _ => KeepsEnv.pure _
    rw [emitExpr, execExpr, ← run_emitExprs [] body]
    cases isQdo with
    | false =>
      rw [if_neg Bool.false_ne_true, run_doLoop, hloop, hkeeps.inScope_eq]
      exact (loop_free _ _).symm
    | true =>
      rw [if_pos rfl, run_qdoLoop, hloop, hkeeps.inScope_eq]
      refine Eq.trans ?_ (loop_free _ _).symm
      simp only [enterLoop, if_true, bind_assoc]
      refine congrArg _ (funext fun start => congrArg _ (funext fun limit => ?_))
      cases V.equal limit start with
      | false => simp only [Bool.false_eq_true, if_false, bind_assoc]
      | true => simp only [if_true, pure_bind]
  | .caseOf arms none _ => by
    rw [emitExpr, execExpr]
    refine run_emitCaseChain rest arms _ _ ?_
    exact (run_singleton V _).trans (guard_free (fun _ => trivial) _).symm
  | .caseOf arms (some default) _ => by
    rw [emitExpr, execExpr]
    refine run_emitCaseChain rest arms _ _ ?_
    refine Eq.trans ?_ (guard_free (fun _ => trivial) _).symm
    rw [run_append, run_emitExprs rest default]
    exact congrArg _ (funext fun _ => run_singleton V _)
  | .tick name span => by rw [emitExpr, execExpr, run_singleton]; rfl
  | .toValue name _ => by rw [emitExpr, execExpr, run_cons, run_singleton]; rfl
  | .see name _ => by rw [emitExpr, execExpr, run_cons, run_singleton]; rfl
  | .letForm form _ => by rw [emitExpr, execExpr, run_singleton]; rfl
  | .locals names _ => by rw [emitExpr, execExpr, run_emitLocals]

theorem run_emitCaseChain (rest : List Expr) : ∀ (arms : List (CaseArm Expr)) (code : List Tok)
    (base : Command Obj World PUnit), run V code = base →
    run V (emitCaseChain r arms code) = execArms V r (Rules.free true) rest arms base
  | [], code, base, h => by rw [emitCaseChain, execArms, h]
  | ⟨matchExpr, body, _⟩ :: arms, code, base, h => by
    have harms := run_emitCaseChain rest arms code base h
    have hbody := run_emitExprs rest body
    have hmatch := run_emitExprs [] matchExpr
    rw [emitCaseChain, execArms, ← harms, ← hbody, ← hmatch]
    refine Eq.trans ?_ (guard_free (fun _ => trivial) _).symm
    rw [run_append, run_cons, run_cons, run_if, run_cons]
    simp only [stepTok, stepPrim, armTest, pushIf, dropTop, Rules.free, if_true, Bool.not_true,
      Bool.false_eq_true, if_false, bind_assoc, push_pop, pure_bind, truthy_bool]

theorem run_emitExprs (rest : List Expr) : ∀ es : List Expr,
    run V (emitExprs r es) = execSeq V r (Rules.free true) rest es
  | [] => by rw [emitExprs, execSeq, run_nil]
  | [e] => by rw [emitExprs, execSeq, run_emitExpr rest e]
  | e :: next :: es => by
    rw [emitExprs, execSeq]
    cases tryEmitNarrowSink r.escape e next with
    | some access => simp only [run_append, run_emitExprs rest es]
    | none =>
      simp only [run_append, run_emitExpr (next :: es ++ rest) e, run_emitExprs rest (next :: es)]
end

end FactorForth.Correctness
