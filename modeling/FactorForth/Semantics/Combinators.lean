import FactorForth.Semantics.Factor

/-! What the emitted combinators do to quotations written in place: each conditional runs one of its
branches in a scope of its own, and the loops repeat their body. -/

namespace FactorForth.Semantics
open FactorForth.Library FactorForth.Compiler
variable {Obj World α β : Type}

theorem run_singleton (V : Vm Obj World) (tok : Tok) : run V [tok] = stepTok V (run V) tok := by
  rw [run_cons, run_nil]
  exact Cmd.bind_pure _

theorem callQuot_here (call : Caller Obj World) (q : List Tok) :
    (getEnv >>= fun env => callQuot call (env, q)) = inScope (call q) := by
  unfold callQuot inScope
  simp only [getEnv_getEnv, getEnv_setEnv, bind_pure_unit]

theorem getEnv_ite (p : Prop) [Decidable p] (f g : Env Obj → Command Obj World α) :
    (getEnv >>= fun env => if p then f env else g env) =
      if p then getEnv >>= f else getEnv >>= g := by
  split <;> rfl

/-! Conditionals. -/

theorem run_if (V : Vm Obj World) (thenQ elseQ : List Tok) :
    run V [.quot thenQ, .quot elseQ, .prim .ifQ] = (do
      let v ← pop
      if v.truthy then inScope (run V thenQ) else inScope (run V elseQ)) := by
  simp only [run_cons, run_nil, stepTok, stepPrim, bind_assoc, push_getEnv, getEnv_getEnv,
    push_popQuot, bind_pure_unit]
  rw [getEnv_pop]
  simp only [getEnv_ite, callQuot_here]

theorem run_unless (V : Vm Obj World) (q : List Tok) :
    run V [.quot q, .prim .unlessQ] = (do
      let v ← pop
      if v.truthy then pure ⟨⟩ else inScope (run V q)) := by
  simp only [run_cons, run_nil, stepTok, stepPrim, bind_assoc, push_popQuot, bind_pure_unit]
  rw [getEnv_pop]
  simp only [getEnv_ite, callQuot_here, getEnv_const]

theorem run_zeroP (V : Vm Obj World) (rest : List Tok) :
    run V (.prim .zeroP :: rest) = (do
      let v ← pop
      push (.bool (V.zero v))
      run V rest) := by
  simp only [run_cons, stepTok, stepPrim, bind_assoc]

/-! `loop`. -/

/-- One pass of `loop` over `q`: the flag it leaves asks for the next. -/
def loopPass (V : Vm Obj World) (q : List Tok) : Command Obj World Bool := do
  inScope (run V q)
  let v ← pop
  pure v.truthy

theorem loopPass_keepsEnv (V : Vm Obj World) (q : List Tok) : KeepsEnv (loopPass V q) :=
  (KeepsEnv.inScope _).bind fun _ => KeepsEnv.pop.bind fun _ => KeepsEnv.pure _

theorem runSeq_loop (V : Vm Obj World) (call : Caller Obj World) (q : List Tok) :
    runSeq V call [.quot q, .prim .loop] = inScope (call (loopCode q)) := by
  simp only [runSeq, stepTok, stepPrim, bind_assoc, push_popQuot, bind_pure_unit, callQuot_here]

theorem runSeq_loopCode (V : Vm Obj World) (call : Caller Obj World) (q : List Tok) :
    runSeq V call (loopCode q) = (do
      inScope (call q)
      let v ← pop
      if v.truthy then inScope (call [.quot q, .prim .loop]) else pure ⟨⟩) := by
  simp only [loopCode, runSeq, stepTok, stepPrim, bind_assoc, push_popQuot, bind_pure_unit]
  rw [← callQuot_here, bind_assoc]
  simp only [getEnv_pop, getEnv_ite, callQuot_here, getEnv_const]

/-- The loop of Factor's definition is the iteration of its pass. -/
theorem run_loop (V : Vm Obj World) (q : List Tok) :
    run V [.quot q, .prim .loop] = Cmd.rounds (loopPass V q) := by
  have hkeeps : inScope (Cmd.rounds (loopPass V q)) = Cmd.rounds (loopPass V q) :=
    (loopPass_keepsEnv V q).rounds.inScope_eq
  have hround : ∀ z, Cmd.round (loopPass V q) z = (do
      inScope (run V q)
      let v ← pop
      if v.truthy then z else pure ⟨⟩) := fun z => by
    simp only [Cmd.round, loopPass, bind_assoc, pure_bind]
  refine Cmd.Le.antisymm ?_ (Cmd.rounds_le ?_)
  · -- both unfoldings of the definition, at every depth of calls
    have hdepth : ∀ k, Cmd.Le (runDepth V k [.quot q, .prim .loop]) (Cmd.rounds (loopPass V q)) ∧
        Cmd.Le (runDepth V k (loopCode q)) (Cmd.rounds (loopPass V q)) := by
      intro k
      induction k with
      | zero => exact ⟨fun _ _ h => h.elim, fun _ _ h => h.elim⟩
      | succ k ih =>
        have hq : Cmd.Le (runDepth V k q) (run V q) := fun s out h => ⟨k, h⟩
        constructor
        · show Cmd.Le (runSeq V (runDepth V k) _) _
          rw [runSeq_loop, ← hkeeps]
          exact inScope_le ih.2
        · show Cmd.Le (runSeq V (runDepth V k) _) _
          rw [runSeq_loopCode, Cmd.rounds_eq, hround]
          refine Cmd.Le.bind (inScope_le hq) fun _ => Cmd.Le.bind (Cmd.Le.refl _) fun v =>
            Cmd.Le.ite ?_ (Cmd.Le.refl _)
          rw [← hkeeps]
          exact inScope_le ih.1
    rintro s out ⟨k, hk⟩
    exact (hdepth k).1 s out hk
  · have hz : run V [.quot q, .prim .loop] = inScope (run V (loopCode q)) := by
      rw [run_eq, runSeq_loop]
    have hzz : inScope (run V [.quot q, .prim .loop]) = run V [.quot q, .prim .loop] := by
      rw [hz]
      exact (KeepsEnv.inScope _).inScope_eq
    have hcode : run V (loopCode q) = Cmd.round (loopPass V q) (run V [.quot q, .prim .loop]) := by
      rw [run_eq, runSeq_loopCode, hzz, hround]
    have hkeeps' : KeepsEnv (Cmd.round (loopPass V q) (run V [.quot q, .prim .loop])) := by
      refine (loopPass_keepsEnv V q).bind fun _ => KeepsEnv.ite ?_ (KeepsEnv.pure _)
      rw [hz]
      exact KeepsEnv.inScope _
    nth_rewrite 2 [hz]
    rw [hcode, hkeeps'.inScope_eq]
    exact Cmd.Le.refl _

/-- A body that leaves a flag makes a pass that returns it. -/
theorem loopPass_eq {V : Vm Obj World} {q : List Tok} {c : Command Obj World Bool}
    (h : run V q = c >>= fun b => push (.bool b)) : loopPass V q = inScope c := by
  unfold loopPass
  rw [h, inScope_push]
  simp only [bind_assoc, push_pop, truthy_bool]
  exact Cmd.bind_pure _

theorem run_loop_of {V : Vm Obj World} {q : List Tok} {c : Command Obj World Bool}
    (h : run V q = c >>= fun b => push (.bool b)) :
    run V [.quot q, .prim .loop] = Cmd.rounds (inScope c) := by
  rw [run_loop, loopPass_eq h]

theorem inScope_run_flag (V : Vm Obj World) (q : List Tok) (p : Prim) (b : Bool)
    (hp : stepPrim V (run V) p = push (.bool b)) :
    inScope (run V (q ++ [.prim p])) = (do inScope (run V q); push (.bool b)) := by
  rw [run_append, run_singleton, stepTok, hp]
  exact inScope_push (run V q) fun _ => .bool b

/-! The counted loops. -/

theorem run_doLoop (V : Vm Obj World) (q : List Tok) :
    run V [.quot q, .prim .doLoop] = inScope (run V (doLoopCode q)) := by
  simp only [run_cons, run_nil, stepTok, stepPrim, bind_assoc, push_popQuot, bind_pure_unit,
    callQuot_here]

theorem run_qdoLoop (V : Vm Obj World) (q : List Tok) :
    run V [.quot q, .prim .qdoLoop] = (do
      let start ← pop
      let limit ← pop
      if V.equal limit start then pure ⟨⟩
      else
        push limit
        push start
        inScope (run V (doLoopCode q))) := by
  simp only [run_cons, run_nil, stepTok, stepPrim, bind_assoc, push_popQuot, bind_pure_unit,
    getEnv_pop, getEnv_ite, getEnv_const]
  simp only [← push_getEnv, callQuot_here]

theorem run_doLoopCode (V : Vm Obj World) (q : List Tok) :
    run V (doLoopCode q) = (do
      let start ← popInt
      let limit ← popInt
      pushLoopFrame limit start
      Cmd.rounds do
        inScope (run V q)
        let delta ← popInt
        let done ← bumpLoop delta
        pure !done
      popLoopFrame) := by
  have hpass : run V [.quot q, .prim .call, .prim .bumpLoop, .prim .not] = (do
      inScope (run V q)
      let delta ← popInt
      let done ← bumpLoop delta
      pure !done) >>= fun b => push (.bool b) := by
    rw [← callQuot_here]
    simp only [run_cons, run_nil, stepTok, stepPrim, bind_assoc, push_popQuot, push_pop,
      bind_pure_unit, truthy_bool, pure_bind]
  have hkeeps : KeepsEnv (do
      inScope (run V q)
      let delta ← popInt
      let done ← bumpLoop delta
      pure !done) :=
    (KeepsEnv.inScope _).bind fun _ => KeepsEnv.popInt.bind fun delta =>
      (KeepsEnv.bumpLoop delta).bind fun _ => KeepsEnv.pure _
  have hloop := run_loop_of hpass
  rw [hkeeps.inScope_eq] at hloop
  have hsplit : doLoopCode q = .prim .pushLoopFrame ::
      ([.quot [.quot q, .prim .call, .prim .bumpLoop, .prim .not], .prim .loop] ++
        [.prim .popLoopFrame]) := rfl
  rw [hsplit, run_cons, run_append, hloop, run_singleton]
  simp only [stepTok, stepPrim, bind_assoc]

end FactorForth.Semantics
