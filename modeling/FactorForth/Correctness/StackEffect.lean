import FactorForth.Library.Arity
import FactorForth.Correctness.AnsMeaning

/-! Stack-effect inference: a known effect of a body is what the body does to the stack, on every
run that leaves a BEGIN-UNTIL with a surplus after one pass and skips a DO-+LOOP altogether. -/

namespace FactorForth.Correctness
open FactorForth.Library FactorForth.Compiler FactorForth.Semantics
variable {Obj World α β : Type}

def stackOf (s : State Obj World) : List (Value Obj) := s.stack

/-- `c` has the effect: it replaces that many items, leaves the rest and does not leave early. The
unknown effect says nothing. -/
def HasEffect : Effect → Command Obj World α → Prop
  | .known i o, c => Arity stackOf i o c ∧ Cmd.NoRet c
  | .unknown, _ => True

namespace HasEffect

theorem cast {c : Command Obj World α} {a b : Effect} (h : HasEffect a c) (hab : a = b) :
    HasEffect b c := hab ▸ h

theorem frame {c : Command Obj World α} {i o : Nat} (h : HasEffect (.known i o) c) (k : Nat) :
    HasEffect (.known (i + k) (o + k)) c := ⟨h.1.frame k, h.2⟩

theorem pure (a : α) (k : Nat) : HasEffect (.known k k) (pure a : Command Obj World α) :=
  ⟨Arity.pure a, Cmd.NoRet.pure a⟩

theorem bind_known {c : Command Obj World α} {f : α → Command Obj World β} {i m o : Nat}
    (hc : HasEffect (.known i m) c) (hf : ∀ a, HasEffect (.known m o) (f a)) :
    HasEffect (.known i o) (c >>= f) :=
  ⟨hc.1.bind fun a => (hf a).1, hc.2.bind fun a => (hf a).2⟩

/-- `Effect.andThen` is the effect of a sequence. -/
theorem bind {c : Command Obj World α} {f : α → Command Obj World β} {a b : Effect}
    (hc : HasEffect a c) (hf : ∀ x, HasEffect b (f x)) : HasEffect (a.andThen b) (c >>= f) := by
  cases a with
  | unknown => exact trivial
  | known ai ao =>
    cases b with
    | unknown => exact trivial
    | known bi bo =>
      rw [Effect.andThen_known, Nat.add_comm (ao - bi)]
      have hm : bi + (ao - bi) = ao + (bi - ao) := by omega
      exact (hc.frame (bi - ao)).bind_known fun x => hm ▸ (hf x).frame (ao - bi)

theorem ite {p : Prop} [Decidable p] {c d : Command Obj World α} {a b : Effect}
    (hc : HasEffect a c) (hd : HasEffect b d) :
    HasEffect (ifElseEffect a b) (if p then c else d) := by
  by_cases h : a = b
  · subst h
    cases a with
    | unknown => exact trivial
    | known i o =>
      rw [ifElseEffect_same]
      exact ⟨hc.1.ite hd.1, hc.2.ite hd.2⟩
  · rw [ifElseEffect_ne h]
    exact trivial

theorem loop {pass : Command Obj World Bool} {k : Nat} (h : HasEffect (.known k k) pass) :
    HasEffect (.known k k) (Cmd.loop pass) := ⟨h.1.loop, h.2.loop⟩

theorem guard (p : State Obj World → Prop) (k : Nat) : HasEffect (.known k k) (Cmd.guard p) :=
  ⟨Arity.guard p, Cmd.NoRet.guard p⟩

/-- A step that is a partial function of the state. -/
theorem ofOption {f : State Obj World → Option (α × State Obj World)} {i o : Nat}
    (h : ∀ s p top rest, f s = some p → s.stack = top ++ rest → top.length = i →
      ∃ top', p.2.stack = top' ++ rest ∧ top'.length = o) :
    HasEffect (.known i o) (Cmd.ofOption f) := by
  refine ⟨?_, Cmd.NoRet.ofOption f⟩
  rintro s a t top rest ⟨p, hp, ht⟩ hs hlen
  cases ht
  exact h s p top rest hp hs hlen

theorem push (v : Value Obj) : HasEffect (.known 0 1) (push v : Command Obj World PUnit) :=
  ofOption fun s p top _ hp hs hlen => by
    cases hp
    exact ⟨v :: top, congrArg (v :: ·) hs, congrArg (· + 1) hlen⟩

/-- What a pop of any kind does to the stack. -/
theorem of_pop {f : State Obj World → Option (α × State Obj World)}
    (h : ∀ s p, f s = some p → ∃ v, s.stack = v :: p.2.stack) :
    HasEffect (.known 1 0) (Cmd.ofOption f) :=
  ofOption fun s p top _ hp hs hlen => by
    obtain ⟨v, hv⟩ := h s p hp
    cases top with
    | nil => cases hlen
    | cons w top =>
      have htop : top = [] := List.eq_nil_of_length_eq_zero (Nat.succ.inj hlen)
      subst htop
      have hrest := hs.symm.trans hv
      exact ⟨[], (List.cons.inj hrest).2.symm, rfl⟩

theorem pop : HasEffect (.known 1 0) (pop : Command Obj World (Value Obj)) :=
  of_pop fun s p hp => by
    split at hp
    next v st hst =>
      cases hp
      exact ⟨v, hst⟩
    next => cases hp

theorem popInt : HasEffect (.known 1 0) (popInt : Command Obj World Int) :=
  of_pop fun s p hp => by
    split at hp
    next n st hst =>
      cases hp
      exact ⟨.int n, hst⟩
    next => cases hp

/-- A step that leaves the stack alone. -/
theorem of_same {f : State Obj World → Option (α × State Obj World)}
    (h : ∀ s p, f s = some p → p.2.stack = s.stack) (k : Nat) :
    HasEffect (.known k k) (Cmd.ofOption f) :=
  ofOption fun s p top _ hp hs hlen => ⟨top, (h s p hp).trans hs, hlen⟩

theorem getEnv (k : Nat) : HasEffect (.known k k) (getEnv : Command Obj World (Env Obj)) :=
  of_same (fun s p hp => by cases hp; rfl) k

theorem setEnv (env : Env Obj) (k : Nat) :
    HasEffect (.known k k) (setEnv env : Command Obj World PUnit) :=
  of_same (fun s p hp => by cases hp; rfl) k

theorem pushLoopFrame (limit start : Int) (k : Nat) :
    HasEffect (.known k k) (pushLoopFrame limit start : Command Obj World PUnit) :=
  of_same (fun s p hp => by cases hp; rfl) k

theorem popLoopFrame (k : Nat) :
    HasEffect (.known k k) (popLoopFrame : Command Obj World PUnit) :=
  of_same (fun s p hp => by
    split at hp
    · cases hp
      rfl
    · cases hp) k

theorem bumpLoop (delta : Int) (k : Nat) :
    HasEffect (.known k k) (bumpLoop delta : Command Obj World Bool) :=
  of_same (fun s p hp => by
    split at hp
    · split at hp
      · cases hp
        rfl
      · cases hp
        rfl
    · cases hp) k

theorem inScope {c : Command Obj World α} {e : Effect} (h : HasEffect e c) :
    HasEffect e (inScope c) := by
  cases e with
  | unknown => exact trivial
  | known i o =>
    exact (getEnv i).bind_known fun env => h.bind_known fun a =>
      (setEnv env o).bind_known fun _ => pure a o

theorem popFlag (V : Vm Obj World) : HasEffect (.known 1 0) (popFlag V) :=
  pop.bind_known fun _ => pure _ 0

theorem dropTop : HasEffect (.known 1 0) (dropTop : Command Obj World PUnit) :=
  pop.bind_known fun _ => pure _ 0

theorem bindLocal (name : Option String) :
    HasEffect (.known 1 0) (bindLocal name : Command Obj World PUnit) :=
  of_pop fun s p hp => by
    split at hp
    next v st hst =>
      cases hp
      exact ⟨v, hst⟩
    next => cases hp

theorem bindLocals (names : List LocalDecl) :
    HasEffect (.known names.length 0) (bindLocals names : Command Obj World PUnit) := by
  induction names with
  | nil => exact pure _ 0
  | cons l names ih =>
    exact (ih.bind fun _ => bindLocal (bindingName l.name)).cast (Effect.andThen_known _ _ _ _)

/-! The control structures. -/

variable (V : Vm Obj World)

theorem until_ {c : Command Obj World PUnit} {e : Effect} {p : Nat → Prop} (h : HasEffect e c)
    (hp : ∀ i o, e = .known i o → i + 1 < o → ∀ n, p n → n = 1) :
    HasEffect (untilEffect e) ((Cmd.loop (Semantics.inScope do
      c
      let b ← Semantics.popFlag V
      Pure.pure !b)) >>= fun n => Cmd.guard fun _ => p n) := by
  cases e with
  | unknown => exact trivial
  | known i o =>
    have hpass : ∀ m, o = m + 1 → HasEffect (.known i m) (Semantics.inScope do
        c
        let b ← Semantics.popFlag V
        Pure.pure !b) := by
      intro m hm
      subst hm
      have hflag := (popFlag V).frame m
      rw [Nat.add_comm 1, Nat.zero_add] at hflag
      exact inScope (h.bind_known fun _ => hflag.bind_known fun b => pure (!b) m)
    simp only [untilEffect]
    split
    next hbalanced =>
      exact (hpass i hbalanced.2).loop.bind_known fun n => guard _ i
    next hne =>
      split
      next hlt =>
        have hsurplus : i + 1 < o := by omega
        have hone := hpass (o - 1) (by omega)
        exact ⟨hone.1.loop_once (hp i o rfl hsurplus),
          hone.2.loop.bind fun _ => Cmd.NoRet.guard _⟩
      next => exact trivial

theorem while_ {c d : Command Obj World PUnit} {e f : Effect} (p : Nat → Prop)
    (hc : HasEffect e c) (hd : HasEffect f d) :
    HasEffect (whileEffect e f) ((Cmd.loop (Semantics.inScope do
      c
      if ← Semantics.popFlag V then
        Semantics.inScope d
        Pure.pure true
      else Pure.pure false)) >>= fun n => Cmd.guard fun _ => p n) := by
  cases e with
  | unknown => exact trivial
  | known pi po =>
    cases f with
    | unknown => exact trivial
    | known bi bo =>
      simp only [whileEffect]
      split
      next hbal =>
        obtain ⟨rfl, rfl⟩ := hbal
        have hpred := hc.frame (max pi bi - pi)
        have hbody := hd.frame (max pi bi - bi)
        have hflag := (popFlag V).frame (max pi bi)
        rw [Nat.add_sub_cancel' (Nat.le_max_right pi bi)] at hbody
        rw [Nat.add_right_comm, Nat.add_sub_cancel' (Nat.le_max_left pi bi)] at hpred
        rw [Nat.add_comm 1, Nat.zero_add] at hflag
        have hite : ∀ b : Bool, HasEffect (.known (max pi bi) (max pi bi)) (if b = true then
            (Semantics.inScope d >>= fun _ => Pure.pure true)
          else (Pure.pure false : Command Obj World Bool)) := fun b => by
          rw [← ifElseEffect_same]
          exact ((inScope hbody).bind_known fun _ => pure true _).ite (pure false _)
        exact (inScope (hpred.bind_known fun _ => hflag.bind_known hite)).loop.bind_known
          fun n => guard _ _
      next => exact trivial

/-- The parts of `DO`: limit and start are taken before the frame is made. -/
theorem countedLoop {c : Command Obj World PUnit} {k : Nat} (h : HasEffect (.known k k) c) :
    HasEffect (.known (2 + k) k) (countedLoop .plus1 c) := by
  have hpass : HasEffect (.known k k) (countedPass .plus1 c) :=
    (inScope h).bind_known fun _ => (pure (1 : Int) k).bind_known fun delta =>
      (bumpLoop delta k).bind_known fun done => pure (!done) k
  refine (popInt.bind fun start => popInt.bind fun limit =>
    (pushLoopFrame limit start k).bind fun _ => hpass.loop.bind fun n =>
      (popLoopFrame k).bind fun _ => pure n k).cast ?_
  simp only [Effect.andThen_known, Effect.known.injEq]
  omega

theorem enterLoop {c : Command Obj World Nat} {k : Nat} (h : HasEffect (.known (2 + k) k) c)
    (isQdo : Bool) : HasEffect (.known (2 + k) k) (enterLoop V isQdo c) := by
  have hite : ∀ start limit : Value Obj, HasEffect (.known k k)
      (if V.equal limit start = true then Pure.pure 0 else do
        Semantics.push limit
        Semantics.push start
        c) := fun start limit => by
    have hpush := ((push limit).bind fun _ => (push start).bind fun _ => h).cast
      (b := .known k k) (by
        simp only [Effect.andThen_known, Effect.known.injEq]
        omega)
    exact ((pure 0 k).ite hpush).cast (ifElseEffect_same k k)
  have hqdo := (pop.bind fun start => pop.bind fun limit => hite start limit).cast
    (b := .known (2 + k) k) (by
      simp only [Effect.andThen_known, Effect.known.injEq]
      omega)
  exact (hqdo.ite h).cast (ifElseEffect_same _ _)

theorem never {c : Command Obj World α} (e : Effect) (h : ∀ s a t, ¬ c s (.ok a t))
    (hret : Cmd.NoRet c) : HasEffect e c := by
  cases e with
  | unknown => exact trivial
  | known i o => exact ⟨fun s a t _ _ hc => (h s a t hc).elim, hret⟩

theorem countedLoop_pos {c : Command Obj World PUnit} {loopKind : LoopKind} {s t : State Obj World}
    {n : Nat} (h : Semantics.countedLoop loopKind c s (.ok n t)) : 0 < n := by
  obtain ⟨start, s₁, -, h⟩ := Cmd.bind_ok.1 h
  obtain ⟨limit, s₂, -, h⟩ := Cmd.bind_ok.1 h
  obtain ⟨-, s₃, -, h⟩ := Cmd.bind_ok.1 h
  obtain ⟨m, s₄, hm, h⟩ := Cmd.bind_ok.1 h
  obtain ⟨-, s₅, -, h⟩ := Cmd.bind_ok.1 h
  cases h
  exact Cmd.loop_pos hm

theorem countedLoop_noRet {c : Command Obj World PUnit} (h : Cmd.NoRet c) (loopKind : LoopKind) :
    Cmd.NoRet (Semantics.countedLoop loopKind c) := by
  have hstep : Cmd.NoRet (loopStep loopKind : Command Obj World Int) := by
    cases loopKind with
    | plus1 => exact Cmd.NoRet.pure _
    | plusN => exact Cmd.NoRet.ofOption _
  have hscope : Cmd.NoRet (Semantics.inScope c) :=
    (Cmd.NoRet.ofOption _).bind fun _ => h.bind fun _ =>
      (Cmd.NoRet.ofOption _).bind fun _ => Cmd.NoRet.pure _
  have hpass : Cmd.NoRet (countedPass loopKind c) :=
    hscope.bind fun _ => hstep.bind fun _ => (Cmd.NoRet.ofOption _).bind fun _ => Cmd.NoRet.pure _
  exact (Cmd.NoRet.ofOption _).bind fun _ => (Cmd.NoRet.ofOption _).bind fun _ =>
    (Cmd.NoRet.ofOption _).bind fun _ => hpass.loop.bind fun _ =>
      (Cmd.NoRet.ofOption _).bind fun _ => Cmd.NoRet.pure _

/-- A `DO … +LOOP` that is held to no pass at all only takes its bounds. -/
theorem enterLoop_skip {c : Command Obj World PUnit} {p : Nat → Prop} (hp : ∀ n, p n → n = 0)
    (hc : Cmd.NoRet c) (k : Nat) (loopKind : LoopKind) (isQdo : Bool) :
    HasEffect (.known (2 + k) k)
      (Semantics.enterLoop V isQdo (Semantics.countedLoop loopKind c) >>= fun n =>
        Cmd.guard fun _ => p n) := by
  have hret := countedLoop_noRet hc loopKind
  have hnever : ∀ s a t, ¬ (Semantics.countedLoop loopKind c >>= fun n =>
      Cmd.guard fun _ => p n) s (.ok a t) := by
    intro s a t h
    obtain ⟨n, u, hn, ⟨hpn, -⟩ | ⟨-, hg⟩⟩ := Cmd.bind_ok.1 h
    · have hpos := countedLoop_pos hn
      rw [hp n hpn] at hpos
      exact Nat.lt_irrefl 0 hpos
    · cases hg
  have hguard : ∀ n, Cmd.NoRet (Cmd.guard fun _ : State Obj World => p n) :=
    fun n => Cmd.NoRet.guard _
  cases isQdo with
  | false => exact never _ hnever (hret.bind hguard)
  | true =>
    have hite : ∀ start limit : Value Obj, HasEffect (.known k k)
        ((if V.equal limit start = true then Pure.pure 0 else do
          Semantics.push limit
          Semantics.push start
          Semantics.countedLoop loopKind c) >>= fun n => Cmd.guard fun _ => p n) := by
      intro start limit
      split
      · exact (pure 0 k).bind_known fun n => guard _ k
      · simp only [bind_assoc]
        refine never _ (fun s a t h => ?_) ((Cmd.NoRet.ofOption _).bind fun _ =>
          (Cmd.NoRet.ofOption _).bind fun _ => hret.bind hguard)
        obtain ⟨-, u, -, h⟩ := Cmd.bind_ok.1 h
        obtain ⟨-, w, -, h⟩ := Cmd.bind_ok.1 h
        exact hnever w a t h
    unfold Semantics.enterLoop
    simp only [if_true, bind_assoc]
    refine (pop.bind fun start => pop.bind fun limit => hite start limit).cast ?_
    simp only [Effect.andThen_known, Effect.known.injEq]
    omega

/-- The test of an arm: a copy of the selector, the match value, and the comparison. -/
theorem armTest {m : Command Obj World PUnit} {e : Effect} (h : HasEffect e m) :
    HasEffect (((Effect.known 1 2).andThen e).andThen (.known 2 0)) (armTest V true m) := by
  refine (pop.bind fun v => (push v).bind fun _ => (push v).bind fun _ => h.bind fun _ =>
    pop.bind fun b => pop.bind fun a => (pure PUnit.unit 0).bind fun _ =>
      pure (V.equal a b) 0).cast ?_
  cases e with
  | unknown => rfl
  | known i o =>
    simp only [Effect.andThen_known, Effect.known.injEq]
    omega

/-- One arm over the arms behind it. -/
theorem caseArm {m b els : Command Obj World PUnit} {em eb ee : Effect} (hm : HasEffect em m)
    (hb : HasEffect eb b) (he : HasEffect ee els) (p : State Obj World → Prop) :
    HasEffect (caseArmEffect em eb ee) (do
      Cmd.guard p
      if ← Semantics.armTest V true m then
        Semantics.inScope do
          Semantics.dropTop
          b
      else Semantics.inScope els) := by
  refine ((guard p 0).bind fun _ => (armTest V hm).bind fun _ =>
    (inScope (dropTop.bind fun _ => hb)).ite (inScope he)).cast ?_
  have hcompare : (Effect.known 2 1).andThen (.known 1 0) = .known 2 0 := rfl
  simp only [caseArmEffect]
  rw [Effect.andThen_assoc _ (.known 2 1) (.known 1 0), hcompare]
  cases ((Effect.known 1 2).andThen em).andThen (.known 2 0) with
  | unknown => rfl
  | known i o =>
    cases ifElseEffect ((Effect.known 1 0).andThen eb) ee with
    | unknown => rfl
    | known i' o' =>
      simp only [Effect.andThen_known, Effect.known.injEq]
      omega

end HasEffect

/-! Environments whose entries are true. -/

section Sound
variable (V : Vm Obj World) (r : Sema) (env : EffectEnv)

/-- The effects of what emission calls by itself. -/
structure RuntimeEffects : Prop where
  printString : HasEffect (.known 1 0)
    (V.reference (.qualifiedBuiltin "forth.runtime" "print-string"))
  sQuote : HasEffect (.known 1 2)
    (V.reference (.qualifiedBuiltin "forth.runtime" "s-quote-runtime"))
  setGlobal : HasEffect (.known 2 0) (V.reference (.builtin "namespaces" "set-global"))
  letForm : ∀ form : LetLang.LetForm,
    HasEffect (.known form.inputs.length form.outputs.length) (onMachine (V.letForm form))

/-! Every word of the code has the effect that the environment gives it; where two of them are
fused, the access has the effect of the two. -/

mutual
def trueExpr : Expr → Prop
  | .wordRef name span => HasEffect (env.wordEffect name span) (execWord V r name span)
  | .ifElse thenBody none _ => trueSeq thenBody
  | .ifElse thenBody (some elseBody) _ => trueSeq thenBody ∧ trueSeq elseBody
  | .beginUntil body _ => trueSeq body
  | .beginWhileRepeat pred body _ => trueSeq pred ∧ trueSeq body
  | .beginAgain body _ => trueSeq body
  | .doLoop _ body _ _ => trueSeq body
  | .caseOf arms none _ => trueArms arms
  | .caseOf arms (some default) _ => trueArms arms ∧ trueSeq default
  | _ => True

def trueArms : List (CaseArm Expr) → Prop
  | [] => True
  | ⟨matchExpr, body, _⟩ :: arms => trueSeq matchExpr ∧ trueSeq body ∧ trueArms arms

def trueSeq : List Expr → Prop
  | [] => True
  | [e] => trueExpr e
  | e :: next :: es =>
    (∀ access, tryEmitNarrowSink r.escape e next = some access →
      HasEffect ((effectOfExpr env e).andThen (effectOfExpr env next)) (run V access)) ∧
    trueExpr e ∧ trueSeq (next :: es)
end

theorem trueSeq_tail {V : Vm Obj World} {r : Sema} {env : EffectEnv} {e next : Expr}
    {es : List Expr} (h : trueSeq V r env (e :: next :: es)) : trueSeq V r env es := by
  rw [trueSeq] at h
  cases es with
  | nil => rw [trueSeq]; exact trivial
  | cons e' es =>
    have hnext := h.2.2
    rw [trueSeq] at hnext
    exact hnext.2.2

/-- What inference asks of a run: a BEGIN-UNTIL whose body leaves more than its flag ends after one
pass, and a `DO … +LOOP` whose body leaves no step is skipped. -/
def effectRules : Rules Obj World where
  copySelector := true
  test _ _ := True
  noMatch _ _ _ _ := True
  passes e n := match e with
    | .beginUntil body _ => ∀ i o, inferSeq env (.known 0 0) body = .known i o → i + 1 < o → n = 1
    | .doLoop _ body .plusN _ => ∀ i, inferSeq env (.known 0 0) body = .known i i → n = 0
    | _ => True

theorem effectRules_agree : Agree V (effectRules env) (Rules.free true) := by
  refine Agree.of_free true fun c c' h => ?_
  exact guard_safe _ _ _ (armTest_safe h true)

variable {V r env}

theorem execLiteral_effect (hrt : RuntimeEffects V) (l : Literal) : HasEffect (literalEffect l) (execLiteral V l) := by
  cases l with
  | int value span => exact HasEffect.push _
  | float value span => exact HasEffect.push _
  | str value kind span =>
    cases kind with
    | dotQuote => exact (HasEffect.push _).bind fun _ => hrt.printString
    | sQuote => exact (HasEffect.push _).bind fun _ => hrt.sQuote
    | sDollarQuote => exact (HasEffect.push _).bind_known fun _ => HasEffect.pure _ 1
    | cQuote => exact (HasEffect.push _).bind_known fun _ => HasEffect.pure _ 1

mutual
theorem execExpr_effect (hrt : RuntimeEffects V) (rest : List Expr) : ∀ e : Expr, trueExpr V r env e →
    HasEffect (effectOfExpr env e) (execExpr V r (effectRules env) rest e)
  | .lit l, _ => by
    rw [effectOfExpr, execExpr]
    exact execLiteral_effect hrt l
  | .wordRef name span, h => by
    rw [effectOfExpr, execExpr]
    rwa [trueExpr] at h
  | .ifElse thenBody none _, h => by
    rw [trueExpr] at h
    have hbody := HasEffect.inScope (execSeq_effect hrt rest thenBody h)
    rw [effectOfExpr, execExpr]
    cases he : inferSeq env (.known 0 0) thenBody with
    | unknown => exact trivial
    | known i o =>
      rw [he] at hbody
      simp only [ifNoElseEffect]
      split
      next hio =>
        subst hio
        refine (HasEffect.popFlag V).bind fun b => ?_
        exact (hbody.ite (HasEffect.pure _ i)).cast (ifElseEffect_same i i)
      next => exact trivial
  | .ifElse thenBody (some elseBody) _, h => by
    rw [trueExpr] at h
    rw [effectOfExpr, execExpr]
    exact (HasEffect.popFlag V).bind fun b =>
      (HasEffect.inScope (execSeq_effect hrt rest thenBody h.1)).ite
        (HasEffect.inScope (execSeq_effect hrt rest elseBody h.2))
  | .beginUntil body span, h => by
    rw [trueExpr] at h
    rw [effectOfExpr, execExpr]
    exact HasEffect.until_ V (execSeq_effect hrt [] body h) fun i o he hlt n hn => hn i o he hlt
  | .beginWhileRepeat pred body span, h => by
    rw [trueExpr] at h
    rw [effectOfExpr, execExpr]
    exact HasEffect.while_ V _ (execSeq_effect hrt [] pred h.1) (execSeq_effect hrt [] body h.2)
  | .beginAgain body _, _ => by
    rw [effectOfExpr]
    exact trivial
  | .doLoop isQdo body loopKind span, h => by
    rw [trueExpr] at h
    have hbody := execSeq_effect hrt [] body h
    rw [effectOfExpr, execExpr]
    cases he : inferSeq env (.known 0 0) body with
    | unknown => exact trivial
    | known i o =>
      rw [he] at hbody
      simp only [doEffect]
      split
      next hio =>
        subst hio
        cases loopKind with
        | plus1 =>
          exact (HasEffect.enterLoop V (HasEffect.countedLoop hbody) isQdo).bind_known
            fun n => HasEffect.guard _ i
        | plusN =>
          exact HasEffect.enterLoop_skip V (fun n hn => hn i he) hbody.2 i .plusN isQdo
      next => exact trivial
  | .caseOf arms none _, h => by
    rw [trueExpr] at h
    rw [effectOfExpr, execExpr]
    exact execArms_effect hrt rest arms _ _ h
      ((HasEffect.guard _ 0).bind fun _ => HasEffect.dropTop)
  | .caseOf arms (some default) _, h => by
    rw [trueExpr] at h
    have hbase := (HasEffect.guard ((effectRules env).noMatch
        (armsUseExit r.wordTargets arms || bodyUsesExit r.wordTargets default)
        (execSeq V r (effectRules env) rest default) rest) 0).bind fun _ =>
      (execSeq_effect hrt rest default h.2).bind fun _ => HasEffect.dropTop
    rw [effectOfExpr, execExpr]
    refine execArms_effect hrt rest arms _ _ h.1 (hbase.cast ?_)
    cases inferSeq env (.known 0 0) default with
    | unknown => rfl
    | known i o =>
      simp only [Effect.andThen_known, Effect.known.injEq]
      omega
  | .tick name span, _ => by
    rw [effectOfExpr, execExpr]
    exact (HasEffect.getEnv 0).bind fun env => HasEffect.push _
  | .toValue name _, _ => by
    rw [effectOfExpr, execExpr]
    exact (HasEffect.push _).bind fun _ => hrt.setGlobal
  | .see name _, _ => by
    rw [effectOfExpr, execExpr]
    exact (HasEffect.push _).bind fun _ => hrt.printString
  | .letForm form _, _ => by
    rw [effectOfExpr, execExpr]
    exact hrt.letForm form
  | .locals names _, _ => by
    rw [effectOfExpr, execExpr]
    exact HasEffect.bindLocals names

theorem execArms_effect (hrt : RuntimeEffects V) (rest : List Expr) : ∀ (arms : List (CaseArm Expr)) (e : Effect)
    (base : Command Obj World PUnit), trueArms V r env arms → HasEffect e base →
    HasEffect (inferArms env e arms) (execArms V r (effectRules env) rest arms base)
  | [], e, base, _, hbase => by
    rw [inferArms, execArms]
    exact hbase
  | ⟨matchExpr, body, _⟩ :: arms, e, base, h, hbase => by
    rw [trueArms] at h
    have hmatch := execSeq_effect hrt [] matchExpr h.1
    have hbody := execSeq_effect hrt rest body h.2.1
    have harms := execArms_effect hrt rest arms e base h.2.2 hbase
    rw [inferArms, execArms]
    exact HasEffect.caseArm V hmatch hbody harms _

theorem execSeq_effect (hrt : RuntimeEffects V) (rest : List Expr) : ∀ es : List Expr, trueSeq V r env es →
    HasEffect (inferSeq env (.known 0 0) es) (execSeq V r (effectRules env) rest es)
  | [], _ => by
    rw [inferSeq, execSeq]
    exact HasEffect.pure _ 0
  | [e], h => by
    rw [trueSeq] at h
    rw [inferSeq_zero_cons, inferSeq, Effect.andThen_zero, execSeq]
    exact execExpr_effect hrt rest e h
  | e :: next :: es, h => by
    have htail := trueSeq_tail h
    rw [trueSeq] at h
    rw [inferSeq_zero_cons, execSeq]
    cases hsink : tryEmitNarrowSink r.escape e next with
    | some access =>
      rw [inferSeq_zero_cons, ← Effect.andThen_assoc]
      exact (h.1 access hsink).bind fun _ => execSeq_effect hrt rest es htail
    | none =>
      exact (execExpr_effect hrt _ e h.2.1).bind fun _ => execSeq_effect hrt rest (next :: es) h.2.2
end

/-- A known effect is what the emitted code does to the stack: from every state that no demand of
`effectRules` fails from, a run that ends replaces the top `i` items by `o` items, and none leaves
early. -/
theorem inferBlock_sound (hrt : RuntimeEffects V) (es : List Expr) (htrue : trueSeq V r env es) {i o : Nat}
    (hinfer : inferBlock env es = .known i o) (s : State Obj World)
    (hs : ¬ execSeq V r (effectRules env) [] es s .fault) :
    (∀ t top bottom, run V (emitExprs r es) s (.ok ⟨⟩ t) → s.stack = top ++ bottom →
      top.length = i → ∃ top', t.stack = top' ++ bottom ∧ top'.length = o) ∧
    ∀ t, ¬ run V (emitExprs r es) s (.ret t) := by
  have heffect := execSeq_effect hrt [] es htrue
  unfold inferBlock at hinfer
  rw [hinfer] at heffect
  have hsafe := execSeq_safe (r := r) (effectRules_agree V env) [] [] es s hs
  rw [run_emitExprs V r []]
  constructor
  · intro t top bottom hrun hstack hlen
    rw [hsafe] at hrun
    exact heffect.1 s ⟨⟩ t top bottom hrun hstack hlen
  · intro t hrun
    rw [hsafe] at hrun
    exact heffect.2 s t hrun

end Sound

section Examples

/-- `begin 5 5 rot until`. -/
def surplusUntil : List Expr :=
  [.beginUntil [.lit (.int 5 (tokenSpan 2)), .lit (.int 5 (tokenSpan 3)),
    .wordRef "rot" (tokenSpan 4)] (tokenSpan 1)]

def rotSema : Sema := bareSema [(tokenSpan 4, .builtin "kernel" "rot")]

def rotEnv : EffectEnv := ⟨[], rotSema.wordTargets⟩

theorem coreVm_runtime : RuntimeEffects coreVm where
  printString := HasEffect.never _ (fun s a t h => by obtain ⟨u, ⟨⟨h, -⟩, -⟩, -⟩ := h; cases h)
    (reference_noRet coreVm (by decide))
  sQuote := HasEffect.never _ (fun s a t h => by obtain ⟨u, ⟨⟨h, -⟩, -⟩, -⟩ := h; cases h)
    (reference_noRet coreVm (by decide))
  setGlobal := HasEffect.never _ (fun s a t h => by obtain ⟨u, ⟨⟨h, -⟩, -⟩, -⟩ := h; cases h)
    (reference_noRet coreVm (by decide))
  letForm form := HasEffect.never _ (fun s a t h => by obtain ⟨u, ⟨h, -⟩, -⟩ := h; exact h)
    (Cmd.NoRet.ofRel _)

theorem rot_effect : HasEffect (.known 3 3) (coreVm.reference (.builtin "kernel" "rot")) := by
  refine ⟨?_, reference_noRet coreVm (by decide)⟩
  rintro s a t top rest ⟨u, ⟨⟨hstep, -⟩, -⟩, ht⟩ hs hlen
  cases ht
  obtain ⟨x, y, z, rfl⟩ := List.length_eq_three.1 hlen
  have hstack : s.stack = x :: y :: z :: rest := hs
  rw [hstack] at hstep
  exact ⟨[z, x, y], (Option.some.inj hstep).symm, rfl⟩

theorem rotSeq_true : trueSeq coreVm rotSema rotEnv [.lit (.int 5 (tokenSpan 2)),
    .lit (.int 5 (tokenSpan 3)), .wordRef "rot" (tokenSpan 4)] := by
  simp only [trueSeq, trueExpr, true_and]
  exact ⟨fun access h => (by cases h), fun access h => (by cases h), rot_effect⟩

theorem exec_rotSeq (R : Rules Unit Unit) (rest : List Expr) (x : Int) (st : List (Value Unit)) :
    execSeq coreVm rotSema R rest [.lit (.int 5 (tokenSpan 2)), .lit (.int 5 (tokenSpan 3)),
      .wordRef "rot" (tokenSpan 4)] (coreState (.int x :: st)) =
      (pure ⟨⟩ : Command Unit Unit PUnit) (coreState (.int x :: .int 5 :: .int 5 :: st)) := by
  have hrot : execWord coreVm rotSema "rot" (tokenSpan 4)
      (coreState (.int 5 :: .int 5 :: .int x :: st)) =
      (pure ⟨⟩ : Command Unit Unit PUnit) (coreState (.int x :: .int 5 :: .int 5 :: st)) :=
    reference_core (.builtin "kernel" "rot") rfl
  have hwide : Wide rotSema := fun _ h => nomatch h
  rw [execSeq_cons hwide, execExpr, execLiteral, push_core, execSeq_cons hwide, execExpr,
    execLiteral, push_core, execSeq, execExpr, hrot]

/-- `5 5 rot` takes one item and leaves three. -/
theorem inferBlock_sound_rot :
    ∃ top', (coreState [.int 0, .int 5, .int 5]).stack = top' ++ [] ∧ top'.length = 3 := by
  refine (inferBlock_sound coreVm_runtime _ rotSeq_true (i := 1) (o := 3) (by decide)
    (coreState [.int 0]) ?_).1 _ [.int 0] [] ?_ rfl rfl
  · rw [exec_rotSeq]
    exact fun h => nomatch h
  · rw [run_emitExprs coreVm rotSema [], exec_rotSeq]
    rfl

/-- One pass of the loop takes its flag from the stack and leaves two fives. -/
theorem rotPass (x : Int) (st : List (Value Unit)) :
    (inScope do
      execSeq coreVm rotSema (Rules.free true) [] [.lit (.int 5 (tokenSpan 2)),
        .lit (.int 5 (tokenSpan 3)), .wordRef "rot" (tokenSpan 4)]
      let b ← popFlag coreVm
      pure !b) (coreState (.int x :: st)) =
      (pure (x == 0) : Command Unit Unit Bool) (coreState (.int 5 :: .int 5 :: st)) := by
  refine inScope_core ?_
  rw [Cmd.bind_of_pure (exec_rotSeq _ _ _ _)]
  unfold popFlag
  rw [bind_assoc, pop_core, pure_bind, Bool.not_not]
  rfl

/-- The effect of `begin 5 5 rot until` is inferred as one item for two, and on `0` it leaves
three. -/
theorem inferBlock_not_sound : ¬ ∀ (V : Vm Unit Unit) (r : Sema) (env : EffectEnv)
    (_ : RuntimeEffects V) (es : List Expr) (_ : trueSeq V r env es) (i o : Nat)
    (_ : inferBlock env es = .known i o) (s t : State Unit Unit) (top bottom : List (Value Unit)),
    run V (emitExprs r es) s (.ok ⟨⟩ t) → s.stack = top ++ bottom → top.length = i →
      ∃ top', t.stack = top' ++ bottom ∧ top'.length = o := by
  intro h
  have hrun : run coreVm (emitExprs rotSema surplusUntil) (coreState [.int 0])
      (.ok ⟨⟩ (coreState [.int 5, .int 5, .int 5])) := by
    rw [run_emitExprs coreVm rotSema [], surplusUntil, execSeq, execExpr]
    refine Cmd.bind_ok.2 ⟨2, _, ?_, Or.inl ⟨trivial, rfl⟩⟩
    rw [Cmd.loop_eq, Cmd.next_apply]
    refine Or.inr (Or.inl ⟨coreState [.int 5, .int 5], ?_, Or.inl ⟨1, _, ?_, rfl⟩⟩)
    · rw [rotPass]
      rfl
    · rw [Cmd.loop_eq, Cmd.next_apply]
      refine Or.inl ⟨_, ?_, rfl⟩
      rw [rotPass]
      rfl
  obtain ⟨top', hstack, hlen⟩ := h coreVm rotSema rotEnv coreVm_runtime surplusUntil rotSeq_true
    1 2 (by decide) _ _ [.int 0] [] hrun rfl rfl
  rw [List.append_nil] at hstack
  rw [← hstack] at hlen
  cases hlen

end Examples

end FactorForth.Correctness
