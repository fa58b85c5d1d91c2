import FactorForth.Compiler.EmitItems
import FactorForth.Correctness.CountedLoops
import FactorForth.Library.Triple

/-! EXIT out of a loop: the loop frames are as deep as at the call when every EXIT follows its UNLOOPs,
and the data stack is put back to what it was at the call. -/

namespace FactorForth.Correctness
open FactorForth.Library FactorForth.Compiler FactorForth.Semantics
variable {Obj World : Type}

def unloopTarget : Target := .qualifiedBuiltin "forth.runtime" "pop-loop-frame"

inductive FrameUse where
  | leaves
  | drops
  | keeps

/-- What a node does to the loop frames: EXIT leaves the word, UNLOOP drops a frame. -/
def frameUse (r : Sema) : Expr → FrameUse
  | .wordRef _ span =>
    match r.wordTargets.lookup span with
    | some t => if t = .exit then .leaves else if t = unloopTarget then .drops else .keeps
    | none => .keeps
  | _ => .keeps

section Unlooped
variable (r : Sema)

/-! Every EXIT follows one UNLOOP for each counted loop around it; `k` frames are open before the code
and `k₀` are to be open behind it. A variable kept in a global and the access behind it are one word. -/

mutual
def unloopedExpr (k : Nat) : Expr → Prop
  | .ifElse thenBody none _ => unloopedSeq k k thenBody
  | .ifElse thenBody (some elseBody) _ => unloopedSeq k k thenBody ∧ unloopedSeq k k elseBody
  | .beginUntil body _ => unloopedSeq k k body
  | .beginWhileRepeat pred body _ => unloopedSeq k k pred ∧ unloopedSeq k k body
  | .beginAgain body _ => unloopedSeq k k body
  | .doLoop _ body _ _ => unloopedSeq (k + 1) (k + 1) body
  | .caseOf arms none _ => unloopedArms k arms
  | .caseOf arms (some default) _ => unloopedArms k arms ∧ unloopedSeq k k default
  | _ => True

def unloopedArms (k : Nat) : List (CaseArm Expr) → Prop
  | [] => True
  | ⟨matchExpr, body, _⟩ :: arms =>
    unloopedSeq k k matchExpr ∧ unloopedSeq k k body ∧ unloopedArms k arms

def unloopedSeq (k₀ k : Nat) : List Expr → Prop
  | [] => k = k₀
  | [e] =>
    match frameUse r e with
    | .leaves => k = 0
    | .drops => k = k₀ + 1
    | .keeps => unloopedExpr k e ∧ k = k₀
  | e :: next :: es =>
    if (tryEmitNarrowSink r.escape e next).isSome then unloopedSeq k₀ k es
    else
      match frameUse r e with
      | .leaves => k = 0
      | .drops => 0 < k ∧ unloopedSeq k₀ (k - 1) (next :: es)
      | .keeps => unloopedExpr k e ∧ unloopedSeq k₀ k (next :: es)
end

end Unlooped

/-- Words leave the loop frames as deep as they were, but for UNLOOP. -/
structure KeepsDepth (V : Vm Obj World) : Prop where
  unloop : ∀ m m', V.word unloopTarget m m' ↔ dropFrame m = some m'
  word : ∀ t m m', t ≠ unloopTarget → V.word t m m' → m'.frames.length = m.frames.length
  name : ∀ s m m', V.name s m m' → m'.frames.length = m.frames.length
  letForm : ∀ f m m', V.letForm f m m' → m'.frames.length = m.frames.length

/-- The command takes the frames from `base + j` to `base + k`, and returns early at `base`. -/
def Depth {α : Type} (base j k : Nat) (c : Command Obj World α) : Prop :=
  Triple (fun s => s.frames.length = base + j) c (fun _ t => t.frames.length = base + k)
    (fun t => t.frames.length = base)

namespace Depth
variable {base j k l : Nat} {α β : Type}

theorem pure (a : α) : Depth base k k (pure a : Command Obj World α) := Triple.pure fun _ h => h

theorem bind {c : Command Obj World α} {f : α → Command Obj World β} (hc : Depth base j k c)
    (hf : ∀ a, Depth base k l (f a)) : Depth base j l (c >>= f) := Triple.bind hc hf

theorem ite {p : Prop} [Decidable p] {c d : Command Obj World α} (hc : Depth base j k c)
    (hd : Depth base j k d) : Depth base j k (if p then c else d) := Triple.ite hc hd

theorem loop {pass : Command Obj World Bool} (h : Depth base k k pass) :
    Depth base k k (Cmd.loop pass) := Triple.loop h

theorem guard (p : State Obj World → Prop) : Depth base k k (Cmd.guard p) := Triple.guard fun _ h => h

theorem exit : Depth base 0 k (Cmd.exit : Command Obj World α) := Triple.exit fun _ h => h

/-- A step that is a partial function of the state and leaves the frames alone. -/
theorem ofOption {f : State Obj World → Option (α × State Obj World)}
    (h : ∀ s p, f s = some p → p.2.frames.length = s.frames.length) :
    Depth base k k (Cmd.ofOption f) :=
  Triple.ofOption fun s p hs hp => (h s p hp).trans hs

theorem onMachine {r : Machine Obj World → Machine Obj World → Prop}
    (h : ∀ m m', r m m' → m'.frames.length = m.frames.length) :
    Depth base k k (onMachine r : Command Obj World PUnit) :=
  Triple.ofRel fun _ _ hs hr => (h _ _ hr.1).trans hs

theorem push (v : Value Obj) : Depth base k k (push v : Command Obj World PUnit) :=
  ofOption fun _ _ hp => by
    obtain rfl := Option.some.inj hp
    rfl

theorem pop : Depth base k k (pop : Command Obj World (Value Obj)) :=
  ofOption fun s p hp => by
    split at hp
    · obtain rfl := Option.some.inj hp
      rfl
    · cases hp

theorem popInt : Depth base k k (popInt : Command Obj World Int) :=
  ofOption fun s p hp => by
    split at hp
    · obtain rfl := Option.some.inj hp
      rfl
    · cases hp

theorem getEnv : Depth base k k (getEnv : Command Obj World (Env Obj)) :=
  ofOption fun s p hp => by
    obtain rfl := Option.some.inj hp
    rfl

theorem setEnv (env : Env Obj) : Depth base k k (setEnv env : Command Obj World PUnit) :=
  ofOption fun s p hp => by
    obtain rfl := Option.some.inj hp
    rfl

theorem lookupLocal (name : String) :
    Depth base k k (lookupLocal name : Command Obj World PUnit) :=
  ofOption fun s p hp => by
    obtain ⟨v, -, rfl⟩ := Option.map_eq_some_iff.mp hp
    rfl

theorem bindLocal (name : Option String) :
    Depth base k k (bindLocal name : Command Obj World PUnit) :=
  ofOption fun s p hp => by
    split at hp
    · obtain rfl := Option.some.inj hp
      rfl
    · cases hp

theorem bumpLoop (delta : Int) : Depth base k k (bumpLoop delta : Command Obj World Bool) :=
  ofOption fun s p hp => by
    split at hp
    · next frame frames hFrames =>
      split at hp
      · obtain rfl := Option.some.inj hp
        rfl
      · obtain rfl := Option.some.inj hp
        rw [hFrames]
        rfl
    · cases hp

theorem pushLoopFrame (limit start : Int) :
    Depth base k (k + 1) (pushLoopFrame limit start : Command Obj World PUnit) :=
  Triple.ofOption fun s p hs hp => by
    obtain rfl := Option.some.inj hp
    exact congrArg (· + 1) hs

theorem popLoopFrame : Depth base (k + 1) k (popLoopFrame : Command Obj World PUnit) :=
  Triple.ofOption fun s p hs hp => by
    split at hp
    · next frame frames hFrames =>
      obtain rfl := Option.some.inj hp
      rw [hFrames] at hs
      exact Nat.succ.inj hs
    · cases hp

theorem inScope {c : Command Obj World α} (h : Depth base j k c) : Depth base j k (inScope c) :=
  getEnv.bind fun env => h.bind fun a => (setEnv env).bind fun _ => pure a

theorem popFlag (V : Vm Obj World) : Depth base k k (popFlag V) := pop.bind fun _ => pure _

theorem dropTop : Depth base k k (dropTop : Command Obj World PUnit) := pop.bind fun _ => pure _

theorem pushIf (c : Bool) (v : Value Obj) :
    Depth base k k (pushIf c v : Command Obj World PUnit) := ite (push v) (pure _)

theorem bindLocals (names : List LocalDecl) :
    Depth base k k (bindLocals names : Command Obj World PUnit) := by
  induction names with
  | nil => exact pure _
  | cons l names ih => exact ih.bind fun _ => bindLocal _

theorem armTest (V : Vm Obj World) (copySelector : Bool) {m : Command Obj World PUnit}
    (h : Depth base k k m) : Depth base k k (armTest V copySelector m) :=
  pop.bind fun v => (push v).bind fun _ => (pushIf _ v).bind fun _ => h.bind fun _ =>
    pop.bind fun _ => pop.bind fun a => (pushIf _ a).bind fun _ => pure _

theorem loopStep (loopKind : LoopKind) :
    Depth base k k (loopStep loopKind : Command Obj World Int) := by
  cases loopKind with
  | plus1 => exact pure _
  | plusN => exact popInt

theorem countedLoop (loopKind : LoopKind) {c : Command Obj World PUnit}
    (h : Depth base (k + 1) (k + 1) c) : Depth base k k (countedLoop loopKind c) := by
  have hPass : Depth base (k + 1) (k + 1) (countedPass loopKind c) :=
    h.inScope.bind fun _ => (loopStep loopKind).bind fun delta => (bumpLoop delta).bind fun _ => pure _
  exact popInt.bind fun start => popInt.bind fun limit => (pushLoopFrame limit start).bind fun _ =>
    hPass.loop.bind fun n => popLoopFrame.bind fun _ => pure n

theorem enterLoop (V : Vm Obj World) (isQdo : Bool) {c : Command Obj World Nat}
    (h : Depth base k k c) : Depth base k k (enterLoop V isQdo c) :=
  ite (pop.bind fun start => pop.bind fun limit =>
    ite (pure 0) ((push limit).bind fun _ => (push start).bind fun _ => h)) h

variable {V : Vm Obj World} (hV : KeepsDepth V)
include hV

theorem reference {t : Target} (hExit : t ≠ .exit) (hUnloop : t ≠ unloopTarget) :
    Depth base k k (V.reference t) := by
  unfold Vm.reference
  split
  · exact lookupLocal _
  · rw [if_neg hExit]
    exact onMachine fun m m' h => hV.word _ m m' hUnloop h

theorem unloop : Depth base (k + 1) k (V.reference unloopTarget) := by
  have href : V.reference unloopTarget = Semantics.onMachine (V.word unloopTarget) := rfl
  rw [href]
  refine Triple.ofRel fun s t hs h => ?_
  have hDrop := (hV.unloop _ _).1 h.1
  unfold dropFrame at hDrop
  split at hDrop
  · next frame frames hFrames =>
    have hLength : frames.length = base + k := by
      rw [hFrames] at hs
      exact Nat.succ.inj hs
    rw [← Option.some.inj hDrop]
    exact hLength
  · cases hDrop

theorem literal (l : Literal) : Depth base k k (execLiteral V l) := by
  cases l with
  | int value span => exact push _
  | float value span => exact push _
  | str value kind span =>
    cases kind with
    | dotQuote => exact (push _).bind fun _ => reference hV (by decide) (by decide)
    | sQuote => exact (push _).bind fun _ => reference hV (by decide) (by decide)
    | sDollarQuote => exact (push _).bind fun _ => pure _
    | cQuote => exact (push _).bind fun _ => pure _

/-- A word that neither leaves nor drops a frame. -/
theorem word {r : Sema} {name : String} {span : Span}
    (h : frameUse r (.wordRef name span) = .keeps) : Depth base k k (execWord V r name span) := by
  unfold frameUse at h
  dsimp only at h
  unfold execWord
  cases hTarget : r.wordTargets.lookup span with
  | none => exact onMachine fun m m' hm => hV.name name m m' hm
  | some t =>
    rw [hTarget] at h
    dsimp only at h
    by_cases hExit : t = .exit
    · rw [if_pos hExit] at h
      cases h
    · rw [if_neg hExit] at h
      by_cases hUnloop : t = unloopTarget
      · rw [if_pos hUnloop] at h
        cases h
      · exact reference hV hExit hUnloop

/-- The access of a variable that is kept in a global. -/
theorem access {escape : Dict String EscapeState} {e next : Expr} {toks : List Tok}
    (h : tryEmitNarrowSink escape e next = some toks) : Depth base k k (run V toks) := by
  have hTok : ∀ tok ∈ toks, (∃ n, tok = .symbol n) ∨ tok = getGlobal ∨ tok = setGlobal ∨
      tok = plusTok := by
    unfold tryEmitNarrowSink at h
    split at h
    · dsimp only at h
      split at h
      · split at h
        all_goals first | (obtain rfl := Option.some.inj h; simp) | cases h
      · cases h
    · cases h
  clear h
  induction toks with
  | nil =>
    rw [run_nil]
    exact pure _
  | cons tok toks ih =>
    rw [run_cons]
    have hHead : Depth base k k (stepTok V (run V) tok) := by
      obtain ⟨n, rfl⟩ | rfl | rfl | rfl := hTok tok List.mem_cons_self
      · exact push _
      · exact reference hV (t := .builtin "namespaces" "get-global") (by decide) (by decide)
      · exact reference hV (t := .builtin "namespaces" "set-global") (by decide) (by decide)
      · exact reference hV (t := .builtin "math" "+") (by decide) (by decide)
    exact hHead.bind fun _ => ih fun t ht => hTok t (List.mem_cons_of_mem _ ht)

end Depth

section Exec
variable {V : Vm Obj World} (r : Sema) {base : Nat}

theorem execWord_target {name : String} {span : Span} {t : Target}
    (h : r.wordTargets.lookup span = some t) : execWord V r name span = V.reference t := by
  unfold execWord
  rw [h]

theorem execWord_leaves {name : String} {span : Span}
    (h : frameUse r (.wordRef name span) = .leaves) : execWord V r name span = Cmd.exit := by
  unfold frameUse at h
  dsimp only at h
  split at h
  · next t hTarget =>
    split at h
    · next hExit =>
      subst hExit
      exact execWord_target r hTarget
    · split at h
      · cases h
      · cases h
  · cases h

theorem execWord_drops {name : String} {span : Span}
    (h : frameUse r (.wordRef name span) = .drops) :
    execWord V r name span = V.reference unloopTarget := by
  unfold frameUse at h
  dsimp only at h
  split at h
  · next t hTarget =>
    split at h
    · cases h
    · split at h
      · next hUnloop =>
        subst hUnloop
        exact execWord_target r hTarget
      · cases h
  · cases h

/-- Only references leave or drop. -/
theorem frameUse_reference {e : Expr} (h : frameUse r e ≠ .keeps) :
    ∃ name span, e = .wordRef name span := by
  cases e with
  | wordRef name span => exact ⟨name, span, rfl⟩
  | _ => exact absurd rfl h

variable (hV : KeepsDepth V)
include hV

mutual
theorem execExpr_depth (rest : List Expr) : ∀ (e : Expr) {k : Nat}, frameUse r e = .keeps →
    unloopedExpr r k e → Depth base k k (execExpr V r (Rules.free true) rest e)
  | .lit l, _, _, _ => by
    rw [execExpr]
    exact Depth.literal hV l
  | .wordRef name span, _, hUse, _ => by
    rw [execExpr]
    exact Depth.word hV hUse
  | .ifElse thenBody none _, _, _, h => by
    rw [unloopedExpr] at h
    rw [execExpr]
    exact (Depth.popFlag V).bind fun _ =>
      Depth.ite (Depth.inScope (execSeq_depth rest thenBody h)) (Depth.pure _)
  | .ifElse thenBody (some elseBody) _, _, _, h => by
    rw [unloopedExpr] at h
    rw [execExpr]
    exact (Depth.popFlag V).bind fun _ =>
      Depth.ite (Depth.inScope (execSeq_depth rest thenBody h.1))
        (Depth.inScope (execSeq_depth rest elseBody h.2))
  -- a pass keeps the depth, so any number of them does
  | .beginUntil body span, _, _, h => by
    rw [unloopedExpr] at h
    rw [execExpr]
    exact (Depth.loop (Depth.inScope ((execSeq_depth [] body h).bind fun _ =>
      (Depth.popFlag V).bind fun _ => Depth.pure _))).bind fun _ => Depth.guard _
  | .beginWhileRepeat pred body span, _, _, h => by
    rw [unloopedExpr] at h
    rw [execExpr]
    exact (Depth.loop (Depth.inScope ((execSeq_depth [] pred h.1).bind fun _ =>
      (Depth.popFlag V).bind fun _ =>
        Depth.ite ((Depth.inScope (execSeq_depth [] body h.2)).bind fun _ => Depth.pure _)
          (Depth.pure _)))).bind fun _ => Depth.guard _
  | .beginAgain body span, _, _, h => by
    rw [unloopedExpr] at h
    rw [execExpr]
    exact (Depth.loop (Depth.inScope ((execSeq_depth [] body h).bind fun _ => Depth.pure _))).bind
      fun _ => Depth.guard _
  -- the frame that is pushed here is popped behind the last pass
  | .doLoop isQdo body loopKind span, _, _, h => by
    rw [unloopedExpr] at h
    rw [execExpr]
    exact (Depth.enterLoop V isQdo (Depth.countedLoop loopKind (execSeq_depth [] body h))).bind
      fun _ => Depth.guard _
  | .caseOf arms none _, _, _, h => by
    rw [unloopedExpr] at h
    rw [execExpr]
    exact execArms_depth rest arms h ((Depth.guard _).bind fun _ => Depth.dropTop)
  | .caseOf arms (some default) _, _, _, h => by
    rw [unloopedExpr] at h
    rw [execExpr]
    exact execArms_depth rest arms h.1 ((Depth.guard _).bind fun _ =>
      (execSeq_depth rest default h.2).bind fun _ => Depth.dropTop)
  | .tick name span, _, _, _ => by
    rw [execExpr]
    exact Depth.getEnv.bind fun env => Depth.push _
  | .toValue name _, _, _, _ => by
    rw [execExpr]
    exact (Depth.push _).bind fun _ => Depth.reference hV (by decide) (by decide)
  | .see name _, _, _, _ => by
    rw [execExpr]
    exact (Depth.push _).bind fun _ => Depth.reference hV (by decide) (by decide)
  | .letForm form _, _, _, _ => by
    rw [execExpr]
    exact Depth.onMachine fun m m' h => hV.letForm form m m' h
  | .locals names _, _, _, _ => by
    rw [execExpr]
    exact Depth.bindLocals names

theorem execArms_depth (rest : List Expr) : ∀ (arms : List (CaseArm Expr)) {k : Nat}
    {elsePath : Command Obj World PUnit}, unloopedArms r k arms → Depth base k k elsePath →
    Depth base k k (execArms V r (Rules.free true) rest arms elsePath)
  | [], _, _, _, hElse => by
    rw [execArms]
    exact hElse
  | ⟨matchExpr, body, _⟩ :: arms, _, _, h, hElse => by
    rw [unloopedArms] at h
    rw [execArms]
    exact (Depth.guard _).bind fun _ =>
      (Depth.armTest V true (execSeq_depth [] matchExpr h.1)).bind fun _ =>
        Depth.ite (Depth.inScope (Depth.dropTop.bind fun _ => execSeq_depth rest body h.2.1))
          (Depth.inScope (execArms_depth rest arms h.2.2 hElse))

theorem execSeq_depth (rest : List Expr) : ∀ (es : List Expr) {k₀ k : Nat},
    unloopedSeq r k₀ k es → Depth base k k₀ (execSeq V r (Rules.free true) rest es)
  | [], _, _, h => by
    rw [unloopedSeq] at h
    subst h
    rw [execSeq]
    exact Depth.pure _
  | [e], k₀, k, h => by
    rw [unloopedSeq] at h
    rw [execSeq]
    cases hUse : frameUse r e with
    | keeps =>
      rw [hUse] at h
      obtain ⟨hExpr, rfl⟩ := h
      exact execExpr_depth rest e hUse hExpr
    | leaves =>
      obtain ⟨name, span, rfl⟩ := frameUse_reference r (e := e) (by rw [hUse]; exact nofun)
      rw [hUse] at h
      have hZero : k = 0 := h
      subst hZero
      rw [execExpr, execWord_leaves r hUse]
      exact Depth.exit
    | drops =>
      obtain ⟨name, span, rfl⟩ := frameUse_reference r (e := e) (by rw [hUse]; exact nofun)
      rw [hUse] at h
      have hOpen : k = k₀ + 1 := h
      subst hOpen
      rw [execExpr, execWord_drops r hUse]
      exact Depth.unloop hV
  | e :: next :: es, k₀, k, h => by
    rw [unloopedSeq] at h
    rw [execSeq]
    cases hSink : tryEmitNarrowSink r.escape e next with
    | some access =>
      rw [hSink, Option.isSome_some, if_pos rfl] at h
      exact (Depth.access hV hSink).bind fun _ => execSeq_depth rest es h
    | none =>
      rw [hSink, Option.isSome_none, if_neg Bool.false_ne_true] at h
      cases hUse : frameUse r e with
      | keeps =>
        rw [hUse] at h
        exact (execExpr_depth _ e hUse h.1).bind fun _ => execSeq_depth rest (next :: es) h.2
      | leaves =>
        obtain ⟨name, span, rfl⟩ := frameUse_reference r (e := e) (by rw [hUse]; exact nofun)
        rw [hUse] at h
        have hZero : k = 0 := h
        subst hZero
        rw [execExpr, execWord_leaves r hUse, Cmd.exit_bind]
        exact Depth.exit
      | drops =>
        obtain ⟨name, span, rfl⟩ := frameUse_reference r (e := e) (by rw [hUse]; exact nofun)
        rw [hUse] at h
        obtain ⟨hOpen, hRest⟩ := h
        obtain ⟨k', rfl⟩ : ∃ k', k = k' + 1 := ⟨k - 1, (Nat.succ_pred_eq_of_pos hOpen).symm⟩
        rw [execExpr, execWord_drops r hUse]
        exact (Depth.unloop hV).bind fun _ => execSeq_depth rest (next :: es) hRest
end

/-- The frames are as deep as at the call wherever the body ends or returns. -/
theorem body_depth {body : List Expr} (hBody : unloopedSeq r 0 0 body) :
    Depth base 0 0 (run V (emitExprs r body)) := by
  rw [run_emitExprs V r []]
  exact execSeq_depth r hV [] body hBody

end Exec

/-- `with-return` gives back the stack and the locals of the call, whatever they are at the return. -/
theorem run_withReturn (V : Vm Obj World) (q : List Tok) {s t : State Obj World}
    (h : run V q s (.ret t)) :
    run V [.quot q, .prim .withReturn] s (.ok ⟨⟩ { t with stack := s.stack, env := s.env }) := by
  rw [run_cons, run_cons, run_nil]
  show ((getEnv >>= fun env => push (.quot env q)) >>= fun _ =>
    (popQuot >>= fun p => Cmd.get >>= fun c =>
      (callQuot (run V) p).catchRet fun u => { u with stack := c.stack, env := c.env }) >>= fun _ =>
        pure PUnit.unit) s _
  simp only [bind_assoc, push_popQuot]
  rw [getEnv_bind]
  have hCall : (getEnv >>= fun env => callQuot (run V) (env, q)) s (.ret t) := by
    rw [callQuot_here]
    unfold inScope
    rw [getEnv_bind]
    exact Cmd.bind_ret.2 (Or.inr h)
  rw [getEnv_bind] at hCall
  have hCaught : ((callQuot (run V) (s.env, q)).catchRet fun u =>
      { u with stack := s.stack, env := s.env }) s
      (.ok ⟨⟩ { t with stack := s.stack, env := s.env }) := Or.inr ⟨t, hCall, rfl⟩
  refine Cmd.bind_ok.2 ⟨s, s, rfl, ?_⟩
  exact Cmd.bind_ok.2 ⟨⟨⟩, _, hCaught, rfl⟩

/-- A body whose EXIT has run in `t` goes on behind the word with the loop frames as deep as at the call,
and with the data stack of `t` exactly when that is the stack the body was called with. -/
theorem exitFromLoop {V : Vm Obj World} (hV : KeepsDepth V) {r : Sema} {body : List Expr}
    (hUses : bodyUsesExit r.wordTargets body = true) (hBody : unloopedSeq r 0 0 body)
    {s t : State Obj World} (h : run V (emitExprs r body) s (.ret t)) :
    ∃ u, run V (emitBody r body) s (.ok ⟨⟩ u) ∧ u.frames.length = s.frames.length ∧
      (u.stack = t.stack ↔ s.stack = t.stack) := by
  have hBodyDepth : Depth s.frames.length 0 0 (run V (emitExprs r body)) := body_depth r hV hBody
  have hDepth : t.frames.length = s.frames.length := (hBodyDepth s rfl).2 t h
  refine ⟨{ t with stack := s.stack, env := s.env }, ?_, hDepth, Iff.rfl⟩
  unfold emitBody
  rw [if_pos hUses]
  exact run_withReturn V _ h

theorem loopVm_keepsDepth : KeepsDepth loopVm where
  unloop _ _ := Iff.rfl
  word t m m' hUnloop h := by
    unfold loopVm at h
    dsimp only at h
    split at h
    · obtain ⟨frame, -, rfl⟩ := Option.map_eq_some_iff.mp h
      rfl
    · obtain ⟨frame, -, rfl⟩ := Option.map_eq_some_iff.mp h
      rfl
    · unfold leaveLoop at h
      split at h
      · next frame frames hFrames =>
        rw [← Option.some.inj h, hFrames]
        rfl
      · cases h
    · exact absurd rfl hUnloop
    · exact congrArg List.length h.2
  name _ _ _ h := h.elim
  letForm _ _ _ h := h.elim

def exitBeginSema : Sema := bareSema [(tokenSpan 4, Target.exit)]

/-- What a BEGIN loop does in its first pass when EXIT runs there. -/
theorem beginAgain_exits {V : Vm Obj World} {r : Sema} {body : List Expr} {span : Span}
    {s t : State Obj World} (h : run V (emitExprs r body) s (.ret t)) :
    run V (emitExprs r [.beginAgain body span]) s (.ret t) := by
  rw [run_emitExprs V r []] at h
  rw [run_emitExprs V r [], execSeq, execExpr]
  refine Cmd.bind_ret.2 (Or.inr ?_)
  rw [Cmd.loop_eq, Cmd.next_apply]
  refine Or.inr (Or.inr (Or.inl ⟨t, rfl, ?_⟩))
  unfold inScope
  rw [getEnv_bind]
  exact Cmd.bind_ret.2 (Or.inr (Cmd.bind_ret.2 (Or.inr h)))

def exitWord : Expr := .wordRef "exit" (tokenSpan 4)

theorem exitWord_leaves : frameUse exitBeginSema exitWord = .leaves := rfl

theorem exitWord_returns (s : State Unit Unit) :
    run loopVm (emitExprs exitBeginSema [exitWord]) s (.ret s) := by
  rw [run_emitExprs loopVm exitBeginSema [], execSeq, exitWord, execExpr,
    execWord_leaves exitBeginSema exitWord_leaves]
  rfl

/-- A BEGIN loop of words that keep the frames up to an EXIT. -/
theorem beginExit_unlooped {body : List Expr} {span : Span}
    (h : unloopedSeq exitBeginSema 0 0 body) :
    unloopedSeq exitBeginSema 0 0 [.beginAgain body span] := by
  rw [unloopedSeq]
  show unloopedExpr exitBeginSema 0 (.beginAgain body span) ∧ 0 = 0
  rw [unloopedExpr]
  exact ⟨h, rfl⟩

/-- `begin exit again` -/
theorem exitFromLoop_begin : ∃ u : State Unit Unit,
    run loopVm (emitBody exitBeginSema [.beginAgain [exitWord] (tokenSpan 3)])
      (coreState [.int 7]) (.ok ⟨⟩ u) ∧ u.frames.length = 0 ∧
      (u.stack = (coreState [.int 7]).stack ↔
        (coreState [.int 7]).stack = (coreState [.int 7]).stack) := by
  have hWord : unloopedSeq exitBeginSema 0 0 [exitWord] := by
    rw [unloopedSeq, exitWord_leaves]
  exact exitFromLoop loopVm_keepsDepth rfl (beginExit_unlooped hWord)
    (beginAgain_exits (exitWord_returns (coreState [.int 7])))

/-- `begin 5 exit again` loses the 5. -/
theorem exitFromLoop_drops : ¬ ∀ (V : Vm Unit Unit) (r : Sema) (body : List Expr), KeepsDepth V →
    bodyUsesExit r.wordTargets body = true → unloopedSeq r 0 0 body →
    ∀ s t, run V (emitExprs r body) s (.ret t) →
      ∀ u, run V (emitBody r body) s (.ok ⟨⟩ u) → u.stack = t.stack := by
  intro h
  have hFive : unloopedSeq exitBeginSema 0 0 [.lit (.int 5 (tokenSpan 3)), exitWord] := by
    have hLit : unloopedExpr exitBeginSema 0 (.lit (.int 5 (tokenSpan 3))) := by
      simp only [unloopedExpr]
    have hWord : unloopedSeq exitBeginSema 0 0 [exitWord] := by
      rw [unloopedSeq, exitWord_leaves]
    rw [unloopedSeq, if_neg (by decide)]
    exact ⟨hLit, hWord⟩
  have hBody : run loopVm (emitExprs exitBeginSema [.lit (.int 5 (tokenSpan 3)), exitWord])
      (coreState []) (.ret (coreState [.int 5])) := by
    have hPush : run loopVm [.int 5] (coreState []) =
        (pure ⟨⟩ : Command Unit Unit PUnit) (coreState [.int 5]) := by
      rw [run_cons, run_nil]
      exact push_core _ _ _
    show run loopVm ([.int 5] ++ emitExprs exitBeginSema [exitWord]) _ _
    rw [run_append, Cmd.bind_of_pure hPush]
    exact exitWord_returns _
  have hLoop := @beginAgain_exits _ _ _ _ _ (tokenSpan 2) _ _ hBody
  have hEnd := run_withReturn loopVm _ hLoop
  have hStack := h loopVm exitBeginSema _ loopVm_keepsDepth rfl (beginExit_unlooped hFive) _ _
    hLoop _ hEnd
  cases hStack

end FactorForth.Correctness
