import FactorForth.Semantics.Linking
import FactorForth.Correctness.StackEffect

/-! The effect of a definition, from what is inferred of its body: head locals are inputs of the word, and the
inputs of a word with locals in its body are bound and given back. -/

namespace FactorForth.Correctness
open FactorForth.Library FactorForth.Compiler FactorForth.Semantics
variable {Obj World : Type}

/-! `with-return` around code that does not return. -/

theorem catchRet_of_noRet {x : Command Obj World PUnit} (hx : Cmd.NoRet x)
    (h : State Obj World → State Obj World) : x.catchRet h = x := by
  refine Cmd.ext fun s out => ?_
  constructor
  · rintro (⟨hOut, -⟩ | ⟨t, hRet, -⟩)
    · exact hOut
    · exact absurd hRet (hx s t)
  · intro hOut
    refine .inl ⟨hOut, ?_⟩
    rintro t rfl
    exact hx s t hOut

theorem get_const (x : Command Obj World PUnit) : (Cmd.get >>= fun _ => x) = x := by
  refine Cmd.ext fun s out => ?_
  rw [Cmd.bind_apply]
  simp [Cmd.get]

theorem run_withReturn_of_noRet (V : Vm Obj World) {q : List Tok} (h : Cmd.NoRet (run V q)) :
    run V [.quot q, .prim .withReturn] = inScope (run V q) := by
  have hCall : ∀ env : Env Obj, Cmd.NoRet (callQuot (run V) (env, q)) := fun env =>
    (Cmd.NoRet.ofOption _).bind fun _ => (Cmd.NoRet.ofOption _).bind fun _ => h.bind fun _ =>
      Cmd.NoRet.ofOption _
  rw [run_cons, run_cons, run_nil]
  show ((getEnv >>= fun env => push (.quot env q)) >>= fun _ =>
    (popQuot >>= fun p => Cmd.get >>= fun c =>
      (callQuot (run V) p).catchRet fun u => { u with stack := c.stack, env := c.env }) >>= fun _ =>
        pure PUnit.unit) = _
  simp only [bind_assoc, push_popQuot, catchRet_of_noRet (hCall _), bind_pure_unit]
  rw [← callQuot_here]
  simp only [get_const]

/-! The parts of a definition. -/

namespace HasEffect

theorem lookupLocal (name : String) :
    HasEffect (.known 0 1) (lookupLocal name : Command Obj World PUnit) :=
  ofOption fun s p top _ hp hs hlen => by
    obtain ⟨v, -, rfl⟩ := Option.map_eq_some_iff.1 hp
    exact ⟨v :: top, congrArg (v :: ·) hs, congrArg (· + 1) hlen⟩

theorem bindInputs (inputs : List (Option String)) :
    HasEffect (.known inputs.length 0) (bindInputs inputs : Command Obj World PUnit) := by
  induction inputs with
  | nil => exact pure _ 0
  | cons name names ih =>
    exact (ih.bind fun _ => bindLocal name).cast (Effect.andThen_known _ _ _ _)

theorem bindInputs_map {α : Type} (f : α → Option String) (xs : List α) :
    HasEffect (.known xs.length 0) (Semantics.bindInputs (xs.map f) : Command Obj World PUnit) :=
  (bindInputs (xs.map f)).cast (by rw [List.length_map])

/-- A call shows the stack of what it runs. -/
theorem called {c : Command Obj World PUnit} {i o : Nat} (h : HasEffect (.known i o) c) :
    HasEffect (.known i o) (onMachine (called c)) := by
  refine ⟨?_, Cmd.NoRet.ofRel _⟩
  rintro s a t top rest ⟨u, ⟨⟨env, hRun⟩, -⟩, hOut⟩ hs hlen
  cases hOut
  exact h.1 ⟨s.toMachine, []⟩ ⟨⟩ ⟨t.toMachine, env⟩ top rest hRun hs hlen

variable (V : Vm Obj World)

/-- The inputs that a body with its own locals is given back. -/
theorem nameToks_read (inputs : List String) {names : List String} (h : names ⊆ inputs) :
    HasEffect (.known 0 names.length)
      (run V ((nameToks names).map (readInput (inputs.map some)))) := by
  induction names with
  | nil =>
    show HasEffect _ (run V [])
    rw [run_nil]
    exact pure _ 0
  | cons name names ih =>
    obtain ⟨hName, hNames⟩ := List.cons_subset.1 h
    have hIn : (inputs.map some).contains (some name) = true := by simpa using hName
    have hTok : readInput (inputs.map some) (.name name) = .word (.local_ name) := if_pos hIn
    show HasEffect _ (run V (readInput (inputs.map some) (.name name) ::
      (nameToks names).map (readInput (inputs.map some))))
    rw [hTok, run_cons]
    have hSeq := (lookupLocal name).bind fun _ : PUnit => ih hNames
    refine hSeq.cast ?_
    rw [Effect.andThen_known, List.length_cons, Nat.zero_sub, Nat.sub_zero, Nat.zero_add, Nat.add_comm]

theorem withReturn {q : List Tok} {i o : Nat} (h : HasEffect (.known i o) (run V q)) :
    HasEffect (.known i o) (run V [.quot q, .prim .withReturn]) := by
  rw [run_withReturn_of_noRet V h.2]
  exact inScope h

end HasEffect

section Definitions
variable {V : Vm Obj World} {r : Sema}

theorem emitBody_effect {body : List Expr} {i o : Nat}
    (h : HasEffect (.known i o) (run V (emitExprs r body))) :
    HasEffect (.known i o) (run V (emitBody r body)) := by
  unfold emitBody
  split
  · exact HasEffect.withReturn V h
  · exact h

/-- A definition binds its head locals and does what its body does. -/
theorem definition_effect (hw : Wide r) {d : Definition} (hTargets : Targeted r (occurrences d.body))
    {i o : Nat} (hBody : HasEffect (.known i o) (run V (emitExprs r d.body)))
    (hGiven : d.locals = [] → bodyUsesLocals d.body = true → ∃ ann,
      midLocalsAnnotation d.effect (r.bodyEffects.lookup (lower d.name)) = some ann ∧
        ann.inputs.length = i)
    {c : Command Obj World PUnit} (hCode : lineCode V (emitDefinition d r) = some c) :
    HasEffect ((Effect.known d.locals.length 0).andThen (.known i o)) c := by
  have hRun := emitBody_effect hBody
  have hRead := fun inputs => readInput_emitBody inputs hw d.body hTargets
  unfold emitDefinition at hCode
  dsimp only at hCode
  split at hCode
  · -- the head locals are the inputs of the word
    obtain rfl := Option.some.inj hCode
    rw [hRead]
    exact (HasEffect.bindInputs_map _ d.locals).bind fun _ => hRun
  · next hHead =>
    have hNone : d.locals = [] := by simpa using hHead
    rw [hNone, List.length_nil, Effect.zero_andThen]
    split at hCode
    · next hMid =>
      obtain ⟨ann, hAnn, rfl⟩ := hGiven hNone hMid
      rw [hAnn] at hCode
      obtain rfl := Option.some.inj hCode
      rw [List.map_append, hRead, run_append]
      have hBack := HasEffect.nameToks_read V ann.inputs (List.Subset.refl ann.inputs)
      have hAll := (HasEffect.bindInputs_map some ann.inputs).bind fun _ : PUnit =>
        hBack.bind fun _ : PUnit => hRun
      refine hAll.cast ?_
      simp only [Effect.andThen_known, Effect.known.injEq]
      omega
    · obtain rfl := Option.some.inj hCode
      exact hRun

end Definitions

/-! Bodies whose words are true. -/

section Words
variable {V : Vm Obj World} {r : Sema} {env : EffectEnv}

/-- Each of the words does what the environment says. -/
def TrueWords (V : Vm Obj World) (r : Sema) (env : EffectEnv) (os : List (String × Span)) : Prop :=
  ∀ o ∈ os, HasEffect (env.wordEffect o.1 o.2) (execWord V r o.1 o.2)

theorem TrueWords.left {xs ys : List (String × Span)} (h : TrueWords V r env (xs ++ ys)) :
    TrueWords V r env xs := fun o ho => h o (List.mem_append_left _ ho)

theorem TrueWords.right {xs ys : List (String × Span)} (h : TrueWords V r env (xs ++ ys)) :
    TrueWords V r env ys := fun o ho => h o (List.mem_append_right _ ho)

variable (hw : Wide r)
include hw

theorem trueSeq_cons {e : Expr} {es : List Expr} (he : trueExpr V r env e)
    (hes : trueSeq V r env es) : trueSeq V r env (e :: es) := by
  cases es with
  | nil =>
    rw [trueSeq]
    exact he
  | cons next es =>
    rw [trueSeq]
    refine ⟨fun access hSink => ?_, he, hes⟩
    rw [tryEmitNarrowSink_wide hw] at hSink
    cases hSink

mutual
theorem trueExpr_of_words : ∀ e : Expr, TrueWords V r env (exprOccurrences e) → trueExpr V r env e
  | .lit _, _ => by
    rw [trueExpr] <;> simp
  | .wordRef name span, h => by
    rw [trueExpr]
    exact h (name, span) (List.mem_singleton_self _)
  | .ifElse thenBody none _, h => by
    rw [trueExpr]
    exact trueSeq_of_words thenBody h
  | .ifElse thenBody (some elseBody) _, h => by
    rw [trueExpr]
    exact ⟨trueSeq_of_words thenBody h.left, trueSeq_of_words elseBody h.right⟩
  | .beginUntil body _, h => by
    rw [trueExpr]
    exact trueSeq_of_words body h
  | .beginWhileRepeat pred body _, h => by
    rw [trueExpr]
    exact ⟨trueSeq_of_words pred h.left, trueSeq_of_words body h.right⟩
  | .beginAgain body _, h => by
    rw [trueExpr]
    exact trueSeq_of_words body h
  | .doLoop _ body _ _, h => by
    rw [trueExpr]
    exact trueSeq_of_words body h
  | .caseOf arms none _, h => by
    rw [trueExpr]
    exact trueArms_of_words arms h
  | .caseOf arms (some default) _, h => by
    rw [trueExpr]
    exact ⟨trueArms_of_words arms h.left, trueSeq_of_words default h.right⟩
  | .tick _ _, _ => by
    rw [trueExpr] <;> simp
  | .toValue _ _, _ => by
    rw [trueExpr] <;> simp
  | .see _ _, _ => by
    rw [trueExpr] <;> simp
  | .letForm _ _, _ => by
    rw [trueExpr] <;> simp
  | .locals _ _, _ => by
    rw [trueExpr] <;> simp

theorem trueArms_of_words : ∀ arms : List (CaseArm Expr),
    TrueWords V r env (armsOccurrences arms) → trueArms V r env arms
  | [], _ => by
    rw [trueArms]
    exact trivial
  | ⟨matchExpr, body, _⟩ :: arms, h => by
    rw [trueArms]
    exact ⟨trueSeq_of_words matchExpr (TrueWords.left (TrueWords.left h)),
      trueSeq_of_words body (TrueWords.right (TrueWords.left h)),
      trueArms_of_words arms (TrueWords.right h)⟩

theorem trueSeq_of_words : ∀ es : List Expr, TrueWords V r env (occurrences es) →
    trueSeq V r env es
  | [], _ => by
    rw [trueSeq]
    exact trivial
  | e :: es, h => trueSeq_cons hw (trueExpr_of_words e h.left) (trueSeq_of_words es h.right)
end

end Words

end FactorForth.Correctness
