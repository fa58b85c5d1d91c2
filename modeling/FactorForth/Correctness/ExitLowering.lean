import FactorForth.Correctness.AnsMeaning

/-! The EXIT pass keeps the meaning of a body on every run that does not take the no-match path of
a CASE with EXIT in it, and on those that take it with nothing but EXIT behind. -/

namespace FactorForth.Correctness
open FactorForth.Library FactorForth.Compiler FactorForth.Semantics
variable {Obj World : Type}

/-! The statements the pass is about: literals, words, IF, CASE, and loops without EXIT. -/

mutual
def plainExpr (r : Dict Span Target) : Expr → Bool
  | .lit _ => true
  | .wordRef _ _ => true
  | .ifElse thenBody none _ => plainSeq r thenBody
  | .ifElse thenBody (some elseBody) _ => plainSeq r thenBody && plainSeq r elseBody
  | .beginUntil body _ => plainSeq r body && !bodyUsesExit r body
  | .beginAgain body _ => plainSeq r body && !bodyUsesExit r body
  | .beginWhileRepeat pred body _ =>
    plainSeq r pred && plainSeq r body && !(bodyUsesExit r pred || bodyUsesExit r body)
  | .doLoop _ body _ _ => plainSeq r body && !bodyUsesExit r body
  | .caseOf arms none _ => plainArms r arms
  | .caseOf arms (some default) _ => plainArms r arms && plainSeq r default
  | _ => false

def plainArms (r : Dict Span Target) : List (CaseArm Expr) → Bool
  | [] => true
  | ⟨matchExpr, body, _⟩ :: arms => plainSeq r matchExpr && plainSeq r body && plainArms r arms

def plainSeq (r : Dict Span Target) : List Expr → Bool
  | [] => true
  | e :: es => plainExpr r e && plainSeq r es
end

section Syntax
variable {t : Dict Span Target}

theorem plainSeq_append (xs ys : List Expr) :
    plainSeq t (xs ++ ys) = (plainSeq t xs && plainSeq t ys) := by
  induction xs with
  | nil => simp only [List.nil_append, plainSeq, Bool.true_and]
  | cons x xs ih => simp only [List.cons_append, plainSeq, ih, Bool.and_assoc]

theorem plainExpr_ifElse (thenBody : List Expr) (elseBody : Option (List Expr)) (sp : Span) :
    plainExpr t (.ifElse thenBody elseBody sp) =
      (plainSeq t thenBody && plainSeq t (elseBody.getD [])) := by
  cases elseBody <;> simp only [plainExpr, Option.getD, plainSeq, Bool.and_true]

theorem plainExpr_caseOf (arms : List (CaseArm Expr)) (default : Option (List Expr)) (sp : Span) :
    plainExpr t (.caseOf arms default sp) = (plainArms t arms && plainSeq t (default.getD [])) := by
  cases default <;> simp only [plainExpr, Option.getD, plainSeq, Bool.and_true]

theorem exprUsesExit_ifElse (thenBody : List Expr) (elseBody : Option (List Expr)) (sp : Span) :
    exprUsesExit t (.ifElse thenBody elseBody sp) =
      (bodyUsesExit t thenBody || bodyUsesExit t (elseBody.getD [])) := by
  cases elseBody <;> simp only [exprUsesExit, Option.getD, bodyUsesExit, Bool.or_false]

theorem exprUsesExit_caseOf (arms : List (CaseArm Expr)) (default : Option (List Expr))
    (sp : Span) : exprUsesExit t (.caseOf arms default sp) =
      (armsUseExit t arms || bodyUsesExit t (default.getD [])) := by
  cases default <;> simp only [exprUsesExit, Option.getD, bodyUsesExit, Bool.or_false]

/-! The equations of the pass. -/

theorem lowerSeq_exit {e : Expr} (h : isExitWord t e = true) (tail : List Expr) :
    lowerSeq t (e :: tail) = ([], true) := by
  cases e with
  | wordRef name span => simp only [lowerSeq, h, if_true]
  | _ => cases h

theorem lowerSeq_ifElse_exit {thenBody : List Expr} {elseBody : Option (List Expr)} {sp : Span}
    (h : exprUsesExit t (.ifElse thenBody elseBody sp) = true) (tail : List Expr) :
    (lowerSeq t (.ifElse thenBody elseBody sp :: tail)).1 =
      [.ifElse (lowerSeq t (thenBody ++ tail)).1
        (some (lowerSeq t (elseBody.getD [] ++ tail)).1) sp] := by
  rw [exprUsesExit_ifElse] at h
  have hnot : isExitWord t (.ifElse thenBody elseBody sp) = false := rfl
  rw [lowerSeq, hnot, if_neg Bool.false_ne_true, if_pos h]

theorem lowerArms_fst (arms : List (CaseArm Expr)) (tail : List Expr) :
    (lowerArms t arms tail).1 =
      arms.map fun a => ⟨a.matchExpr, (lowerSeq t (a.body ++ tail)).1, a.span⟩ := by
  induction arms with
  | nil => rw [lowerArms, List.map_nil]
  | cons a arms ih =>
    obtain ⟨matchExpr, body, span⟩ := a
    rw [lowerArms, List.map_cons, ← ih]

/-- A default with no code in it is left out. -/
def givenDefault (es : List Expr) : Option (List Expr) := if es.isEmpty then none else some es

theorem givenDefault_getD (es : List Expr) : (givenDefault es).getD [] = es := by
  cases es <;> rfl

theorem lowerSeq_caseOf_given {arms : List (CaseArm Expr)} {default : Option (List Expr)}
    {sp : Span} (h : exprUsesExit t (.caseOf arms default sp) = true) (tail : List Expr) :
    (lowerSeq t (.caseOf arms default sp :: tail)).1 =
      [.caseOf (lowerArms t arms tail).1
        (givenDefault (lowerSeq t (default.getD [] ++ tail)).1) sp] := by
  rw [exprUsesExit_caseOf] at h
  have hnot : isExitWord t (.caseOf arms default sp) = false := rfl
  rw [lowerSeq, hnot, if_neg Bool.false_ne_true, if_pos h]
  rfl

theorem lowerSeq_caseOf_exit {arms : List (CaseArm Expr)} {default : Option (List Expr)}
    {sp : Span} (h : exprUsesExit t (.caseOf arms default sp) = true) (tail : List Expr) :
    ∃ default', default'.getD [] = (lowerSeq t (default.getD [] ++ tail)).1 ∧
      (lowerSeq t (.caseOf arms default sp :: tail)).1 =
        [.caseOf (lowerArms t arms tail).1 default' sp] :=
  ⟨_, givenDefault_getD _, lowerSeq_caseOf_given h tail⟩

/-- A word that is not EXIT is kept, and so is a loop with whatever is in it. -/
theorem lowerSeq_other {e : Expr} (hWord : isExitWord t e = false)
    (hif : ∀ thenBody elseBody sp, e ≠ .ifElse thenBody elseBody sp)
    (hcase : ∀ arms default sp, e ≠ .caseOf arms default sp) (tail : List Expr) :
    (lowerSeq t (e :: tail)).1 = e :: (lowerSeq t tail).1 := by
  rw [lowerSeq, hWord, if_neg Bool.false_ne_true]
  · exact hif
  · exact hcase

theorem isExitWord_free {e : Expr} (h : exprUsesExit t e = false) : isExitWord t e = false := by
  cases e with
  | wordRef name span => exact h
  | _ => rfl

theorem lowerArms_free {n : Nat} (ih : ∀ seq : List Expr, seqSize seq ≤ n →
    bodyUsesExit t seq = false → (lowerSeq t seq).1 = seq) (arms : List (CaseArm Expr))
    (hn : armsSize arms ≤ n) (hexit : armsUseExit t arms = false) :
    (lowerArms t arms []).1 = arms := by
  induction arms with
  | nil => rw [lowerArms]
  | cons a arms iharms =>
    obtain ⟨matchExpr, body, span⟩ := a
    rw [armsUseExit, Bool.or_eq_false_iff] at hexit
    rw [armsSize] at hn
    have hbody : (lowerSeq t (body ++ [])).1 = body := by
      rw [List.append_nil]
      exact ih body (by omega) hexit.1
    rw [lowerArms]
    show CaseArm.mk matchExpr (lowerSeq t (body ++ [])).1 span :: (lowerArms t arms []).1 = _
    rw [hbody, iharms (by omega) hexit.2]

/-- Code without EXIT is left as it is. -/
theorem lowerSeq_free (n : Nat) : ∀ seq : List Expr, seqSize seq ≤ n →
    bodyUsesExit t seq = false → (lowerSeq t seq).1 = seq := by
  induction n with
  | zero =>
    intro seq hn _
    cases seq with
    | nil => rw [lowerSeq]
    | cons e tail =>
      have hpos := Expr.size_pos e
      rw [seqSize] at hn
      omega
  | succ n ih =>
    intro seq hn hexit
    cases seq with
    | nil => rw [lowerSeq]
    | cons e tail =>
      have hpos := Expr.size_pos e
      rw [seqSize] at hn
      rw [bodyUsesExit, Bool.or_eq_false_iff] at hexit
      have htail : (lowerSeq t tail).1 = tail := ih tail (by omega) hexit.2
      cases e with
      | ifElse thenBody elseBody sp =>
        have hsize := Expr.size_ifElse thenBody elseBody sp
        have huses := hexit.1
        rw [exprUsesExit_ifElse] at huses
        have hboth := Bool.or_eq_false_iff.1 huses
        have hnot : isExitWord t (.ifElse thenBody elseBody sp) = false := rfl
        rw [lowerSeq, hnot, huses, if_neg Bool.false_ne_true, if_neg Bool.false_ne_true]
        show Expr.ifElse _ _ sp :: (lowerSeq t tail).1 = _
        rw [htail, ih thenBody (by omega) hboth.1, ih (elseBody.getD []) (by omega) hboth.2]
        cases elseBody <;> rfl
      | caseOf arms default sp =>
        have hsize := Expr.size_caseOf arms default sp
        have huses := hexit.1
        rw [exprUsesExit_caseOf] at huses
        have hboth := Bool.or_eq_false_iff.1 huses
        have hnot : isExitWord t (.caseOf arms default sp) = false := rfl
        have harms : (lowerArms t arms []).1 = arms :=
          lowerArms_free ih arms (by omega) hboth.1
        rw [lowerSeq, hnot, huses, if_neg Bool.false_ne_true, if_neg Bool.false_ne_true]
        show Expr.caseOf (lowerArms t arms []).1 _ sp :: (lowerSeq t tail).1 = _
        rw [htail, harms, ih (default.getD []) (by omega) hboth.2]
        cases default <;> rfl
      | _ =>
        rw [lowerSeq_other (isExitWord_free hexit.1) (fun _ _ _ h => by cases h)
          (fun _ _ _ h => by cases h), htail]

theorem lowerSeq_cons_free {e : Expr} (hexit : exprUsesExit t e = false) (tail : List Expr) :
    (lowerSeq t (e :: tail)).1 = e :: (lowerSeq t tail).1 := by
  have hone : (lowerSeq t [e]).1 = [e] := by
    refine lowerSeq_free _ [e] (Nat.le_refl _) ?_
    rw [bodyUsesExit, hexit, bodyUsesExit, Bool.or_false]
  have hnot := isExitWord_free hexit
  cases e with
  | ifElse thenBody elseBody sp =>
    rw [exprUsesExit_ifElse] at hexit
    rw [lowerSeq, hnot, hexit, if_neg Bool.false_ne_true, if_neg Bool.false_ne_true] at hone ⊢
    exact congrArg (· :: (lowerSeq t tail).1) (List.head_eq_of_cons_eq hone)
  | caseOf arms default sp =>
    rw [exprUsesExit_caseOf] at hexit
    rw [lowerSeq, hnot, hexit, if_neg Bool.false_ne_true, if_neg Bool.false_ne_true] at hone ⊢
    exact congrArg (· :: (lowerSeq t tail).1) (List.head_eq_of_cons_eq hone)
  | _ => exact lowerSeq_other hnot (fun _ _ _ h => by cases h) (fun _ _ _ h => by cases h) tail

theorem plain_lowerArms {k : Nat} {tail : List Expr} (ih : ∀ xs, seqSize xs < k →
    plainSeq t xs = true → plainSeq t (lowerSeq t (xs ++ tail)).1 = true)
    (arms : List (CaseArm Expr)) (hn : armsSize arms < k) (hplain : plainArms t arms = true) :
    plainArms t (lowerArms t arms tail).1 = true := by
  rw [lowerArms_fst]
  induction arms with
  | nil => rfl
  | cons a arms iharms =>
    obtain ⟨matchExpr, body, span⟩ := a
    rw [plainArms, Bool.and_eq_true, Bool.and_eq_true] at hplain
    rw [armsSize] at hn
    rw [List.map_cons, plainArms, hplain.1.1, ih body (by omega) hplain.1.2,
      iharms (by omega) hplain.2]
    rfl

/-- A loop of these statements has no EXIT in it. -/
theorem plain_usesExit {e : Expr} (hplain : plainExpr t e = true) (huses : exprUsesExit t e = true) :
    isExitWord t e = true ∨ (∃ thenBody elseBody sp, e = .ifElse thenBody elseBody sp) ∨
      ∃ arms default sp, e = .caseOf arms default sp := by
  cases e with
  | wordRef name span => exact Or.inl huses
  | ifElse thenBody elseBody sp => exact Or.inr (Or.inl ⟨_, _, _, rfl⟩)
  | caseOf arms default sp => exact Or.inr (Or.inr ⟨_, _, _, rfl⟩)
  | beginUntil body sp =>
    rw [plainExpr, Bool.and_eq_true, Bool.not_eq_true'] at hplain
    rw [exprUsesExit, hplain.2] at huses
    cases huses
  | beginAgain body sp =>
    rw [plainExpr, Bool.and_eq_true, Bool.not_eq_true'] at hplain
    rw [exprUsesExit, hplain.2] at huses
    cases huses
  | beginWhileRepeat pred body sp =>
    rw [plainExpr, Bool.and_eq_true, Bool.not_eq_true'] at hplain
    rw [exprUsesExit, hplain.2] at huses
    cases huses
  | doLoop isQdo body loopKind sp =>
    rw [plainExpr, Bool.and_eq_true, Bool.not_eq_true'] at hplain
    rw [exprUsesExit, hplain.2] at huses
    cases huses
  | _ => cases huses

/-- The pass stays among the statements it is about. -/
theorem plain_lowerSeq (n : Nat) : ∀ seq : List Expr, seqSize seq ≤ n → plainSeq t seq = true →
    plainSeq t (lowerSeq t seq).1 = true := by
  induction n with
  | zero =>
    intro seq hn hplain
    cases seq with
    | nil => rw [lowerSeq]; rfl
    | cons e tail =>
      have hpos := Expr.size_pos e
      rw [seqSize] at hn
      omega
  | succ n ih =>
    intro seq hn hplain
    cases seq with
    | nil => rw [lowerSeq]; rfl
    | cons e tail =>
      have hpos := Expr.size_pos e
      rw [seqSize] at hn
      rw [plainSeq, Bool.and_eq_true] at hplain
      cases huses : exprUsesExit t e with
      | false =>
        rw [lowerSeq_cons_free huses, plainSeq, hplain.1, ih tail (by omega) hplain.2]
        rfl
      | true =>
        have happend : ∀ xs, seqSize xs < e.size → plainSeq t xs = true →
            plainSeq t (lowerSeq t (xs ++ tail)).1 = true := by
          intro xs hxs hp
          refine ih (xs ++ tail) (by rw [seqSize_append]; omega) ?_
          rw [plainSeq_append, hp, hplain.2]
          rfl
        rcases plain_usesExit hplain.1 huses with
          hexit | ⟨thenBody, elseBody, sp, rfl⟩ | ⟨arms, default, sp, rfl⟩
        · rw [lowerSeq_exit hexit]
          rfl
        · have hparts := hplain.1
          rw [plainExpr_ifElse, Bool.and_eq_true] at hparts
          have hsize := Expr.size_ifElse thenBody elseBody sp
          rw [lowerSeq_ifElse_exit huses, plainSeq, plainExpr_ifElse,
            happend thenBody (by omega) hparts.1, Option.getD,
            happend (elseBody.getD []) (by omega) hparts.2]
          rfl
        · have hparts := hplain.1
          rw [plainExpr_caseOf, Bool.and_eq_true] at hparts
          have hsize := Expr.size_caseOf arms default sp
          obtain ⟨default', hdefault, hlower⟩ := lowerSeq_caseOf_exit huses tail
          have harms : plainArms t (lowerArms t arms tail).1 = true :=
            plain_lowerArms happend arms (by omega) hparts.1
          rw [hlower, plainSeq, plainExpr_caseOf, harms, hdefault,
            happend (default.getD []) (by omega) hparts.2]
          rfl

end Syntax

/-! Runs of these statements. -/

section Runs
variable (V : Vm Obj World) (r : Sema) (R : Rules Obj World)

theorem execExpr_ifElse (rest thenBody : List Expr) (elseBody : Option (List Expr)) (sp : Span) :
    execExpr V r R rest (.ifElse thenBody elseBody sp) = (do
      if ← popFlag V then inScope (execSeq V r R rest thenBody)
      else inScope (execSeq V r R rest (elseBody.getD []))) := by
  cases elseBody with
  | none =>
    have hnil : inScope (execSeq V r R rest []) = pure ⟨⟩ := by
      rw [execSeq]
      exact (KeepsEnv.pure _).inScope_eq
    rw [execExpr, Option.getD, hnil]
  | some elseBody => rw [execExpr, Option.getD]

/-- The no-match path of a CASE. -/
def noMatchPath (rest : List Expr) (arms : List (CaseArm Expr)) (default : List Expr) :
    Command Obj World PUnit := do
  Cmd.guard (R.noMatch (armsUseExit r.wordTargets arms || bodyUsesExit r.wordTargets default)
    (execSeq V r R rest default) rest)
  execSeq V r R rest default
  dropTop

theorem execExpr_caseOf (rest : List Expr) (arms : List (CaseArm Expr))
    (default : Option (List Expr)) (sp : Span) :
    execExpr V r R rest (.caseOf arms default sp) =
      execArms V r R rest arms (noMatchPath V r R rest arms (default.getD [])) := by
  cases default with
  | none =>
    unfold noMatchPath
    rw [execExpr, Option.getD, execSeq, bodyUsesExit, Bool.or_false, pure_bind]
  | some default => rw [execExpr]; rfl

variable {V r R}

theorem execWord_keepsEnv (name : String) (span : Span) : KeepsEnv (execWord V r name span) := by
  unfold execWord
  split
  · exact KeepsEnv.reference V _
  · exact KeepsEnv.onMachine _

theorem execLiteral_keepsEnv (l : Literal) : KeepsEnv (execLiteral V l) := by
  cases l with
  | int value span => exact KeepsEnv.push _
  | float value span => exact KeepsEnv.push _
  | str value kind span =>
    refine (KeepsEnv.push _).bind fun _ => ?_
    cases kind with
    | dotQuote => exact KeepsEnv.reference V _
    | sQuote => exact KeepsEnv.reference V _
    | sDollarQuote => exact KeepsEnv.pure _
    | cQuote => exact KeepsEnv.pure _

theorem popFlag_keepsEnv : KeepsEnv (popFlag V) := KeepsEnv.pop.bind fun _ => KeepsEnv.pure _

theorem dropTop_keepsEnv : KeepsEnv (dropTop : Command Obj World PUnit) :=
  KeepsEnv.pop.bind fun _ => KeepsEnv.pure _

theorem pushIf_keepsEnv (c : Bool) (v : Value Obj) :
    KeepsEnv (pushIf c v : Command Obj World PUnit) :=
  (KeepsEnv.push v).ite (KeepsEnv.pure _)

theorem armTest_keepsEnv {c : Command Obj World PUnit} (h : KeepsEnv c) (copySelector : Bool) :
    KeepsEnv (armTest V copySelector c) :=
  KeepsEnv.pop.bind fun v => (KeepsEnv.push v).bind fun _ => (pushIf_keepsEnv _ v).bind fun _ =>
    h.bind fun _ => KeepsEnv.pop.bind fun _ => KeepsEnv.pop.bind fun a =>
      (pushIf_keepsEnv _ a).bind fun _ => KeepsEnv.pure _

theorem enterLoop_keepsEnv {c : Command Obj World Nat} (h : KeepsEnv c) (isQdo : Bool) :
    KeepsEnv (enterLoop V isQdo c) :=
  (KeepsEnv.pop.bind fun start => KeepsEnv.pop.bind fun limit => (KeepsEnv.pure _).ite
    ((KeepsEnv.push limit).bind fun _ => (KeepsEnv.push start).bind fun _ => h)).ite h

theorem noMatchPath_keepsEnv {rest default : List Expr} {arms : List (CaseArm Expr)}
    (h : KeepsEnv (execSeq V r R rest default)) :
    KeepsEnv (noMatchPath V r R rest arms default) :=
  (KeepsEnv.guard _).bind fun _ => h.bind fun _ => dropTop_keepsEnv

mutual
theorem plainExpr_keepsEnv (hw : Wide r) (t : Dict Span Target) (rest : List Expr) : ∀ e : Expr,
    plainExpr t e = true → KeepsEnv (execExpr V r R rest e)
  | .lit l, _ => by
    rw [execExpr]
    exact execLiteral_keepsEnv l
  | .wordRef name span, _ => by
    rw [execExpr]
    exact execWord_keepsEnv name span
  | .ifElse thenBody elseBody sp, h => by
    rw [execExpr_ifElse]
    exact popFlag_keepsEnv.bind fun _ => (KeepsEnv.inScope _).ite (KeepsEnv.inScope _)
  | .beginUntil body sp, h => by
    rw [execExpr]
    exact (KeepsEnv.inScope _).loop.bind fun _ => KeepsEnv.guard _
  | .beginAgain body sp, h => by
    rw [execExpr]
    exact (KeepsEnv.inScope _).loop.bind fun _ => KeepsEnv.guard _
  | .beginWhileRepeat pred body sp, h => by
    rw [execExpr]
    exact (KeepsEnv.inScope _).loop.bind fun _ => KeepsEnv.guard _
  | .doLoop isQdo body loopKind sp, h => by
    rw [execExpr]
    exact (enterLoop_keepsEnv (countedLoop_keepsEnv loopKind _) isQdo).bind
      fun _ => KeepsEnv.guard _
  | .caseOf arms none sp, h => by
    rw [execExpr_caseOf]
    rw [plainExpr] at h
    have hnil : KeepsEnv (execSeq V r R rest []) := by
      rw [execSeq]
      exact KeepsEnv.pure _
    exact plainArms_keepsEnv hw t rest arms _ h (noMatchPath_keepsEnv hnil)
  | .caseOf arms (some default) sp, h => by
    rw [execExpr_caseOf]
    rw [plainExpr, Bool.and_eq_true] at h
    exact plainArms_keepsEnv hw t rest arms _ h.1
      (noMatchPath_keepsEnv (plainSeq_keepsEnv hw t rest default h.2))

theorem plainArms_keepsEnv (hw : Wide r) (t : Dict Span Target) (rest : List Expr) :
    ∀ (arms : List (CaseArm Expr)) (base : Command Obj World PUnit), plainArms t arms = true →
    KeepsEnv base → KeepsEnv (execArms V r R rest arms base)
  | [], base, _, hbase => by
    rw [execArms]
    exact hbase
  | ⟨matchExpr, body, _⟩ :: arms, base, h, hbase => by
    rw [plainArms, Bool.and_eq_true, Bool.and_eq_true] at h
    rw [execArms]
    exact (KeepsEnv.guard _).bind fun _ =>
      (armTest_keepsEnv (plainSeq_keepsEnv hw t [] matchExpr h.1.1) _).bind fun _ =>
        (KeepsEnv.inScope _).ite (KeepsEnv.inScope _)

theorem plainSeq_keepsEnv (hw : Wide r) (t : Dict Span Target) (rest : List Expr) : ∀ es : List Expr,
    plainSeq t es = true → KeepsEnv (execSeq V r R rest es)
  | [], _ => by
    rw [execSeq]
    exact KeepsEnv.pure _
  | e :: es, h => by
    rw [plainSeq, Bool.and_eq_true] at h
    rw [execSeq_cons hw]
    exact (plainExpr_keepsEnv hw t (es ++ rest) e h.1).bind fun _ =>
      plainSeq_keepsEnv hw t rest es h.2
end

/-! Code without EXIT does not leave early, given that no match expression does. -/

theorem execLiteral_noRet (l : Literal) : Cmd.NoRet (execLiteral V l) := by
  cases l with
  | int value span => exact Cmd.NoRet.ofOption _
  | float value span => exact Cmd.NoRet.ofOption _
  | str value kind span =>
    refine (Cmd.NoRet.ofOption _).bind fun _ => ?_
    cases kind with
    | dotQuote => exact reference_noRet V (by decide)
    | sQuote => exact reference_noRet V (by decide)
    | sDollarQuote => exact Cmd.NoRet.pure _
    | cQuote => exact Cmd.NoRet.pure _

theorem execWord_noRet {name : String} {span : Span}
    (h : isExitWord r.wordTargets (.wordRef name span) = false) :
    Cmd.NoRet (execWord V r name span) := by
  unfold execWord
  cases ht : r.wordTargets.lookup span with
  | some t =>
    refine reference_noRet V fun he => ?_
    rw [isExitWord, ht, he] at h
    exact Bool.noConfusion (h.symm.trans (beq_self_eq_true _))
  | none => exact Cmd.NoRet.ofRel _

theorem popFlag_noRet : Cmd.NoRet (popFlag V) :=
  (Cmd.NoRet.ofOption _).bind fun _ => Cmd.NoRet.pure _

theorem dropTop_noRet : Cmd.NoRet (dropTop : Command Obj World PUnit) :=
  (Cmd.NoRet.ofOption _).bind fun _ => Cmd.NoRet.pure _

theorem inScope_safeNoRet {α : Type} {c : Command Obj World α} (h : Cmd.SafeNoRet c) :
    Cmd.SafeNoRet (inScope c) :=
  (Cmd.NoRet.ofOption _).safe.bind fun _ => h.bind fun _ =>
    ((Cmd.NoRet.ofOption _).bind fun _ => Cmd.NoRet.pure _).safe

theorem countedLoop_safeNoRet {c : Command Obj World PUnit} (h : Cmd.SafeNoRet c)
    (loopKind : LoopKind) : Cmd.SafeNoRet (countedLoop loopKind c) := by
  have hstep : Cmd.NoRet (loopStep loopKind : Command Obj World Int) := by
    cases loopKind with
    | plus1 => exact Cmd.NoRet.pure _
    | plusN => exact Cmd.NoRet.ofOption _
  have hpass : Cmd.SafeNoRet (countedPass loopKind c) :=
    (inScope_safeNoRet h).bind fun _ => hstep.safe.bind fun _ =>
      ((Cmd.NoRet.ofOption _).bind fun _ => Cmd.NoRet.pure _).safe
  exact (Cmd.NoRet.ofOption _).safe.bind fun _ => (Cmd.NoRet.ofOption _).safe.bind fun _ =>
    (Cmd.NoRet.ofOption _).safe.bind fun _ => hpass.loop.bind fun _ =>
      ((Cmd.NoRet.ofOption _).bind fun _ => Cmd.NoRet.pure _).safe

theorem enterLoop_safeNoRet {c : Command Obj World Nat} (h : Cmd.SafeNoRet c) (isQdo : Bool) :
    Cmd.SafeNoRet (enterLoop V isQdo c) := by
  refine Cmd.SafeNoRet.ite ?_ h
  exact (Cmd.NoRet.ofOption _).safe.bind fun _ => (Cmd.NoRet.ofOption _).safe.bind fun _ =>
    (Cmd.NoRet.pure _).safe.ite ((Cmd.NoRet.ofOption _).safe.bind fun _ =>
      (Cmd.NoRet.ofOption _).safe.bind fun _ => h)

/-- What the EXIT pass asks of a run: no match expression leaves the word, and where no arm of a
CASE with EXIT in it matches, the default does not leave and nothing but EXIT is behind. -/
def exitRules (t : Dict Span Target) : Rules Obj World where
  copySelector := true
  passes _ _ := True
  test c s := ∀ v st, s.stack = v :: st → ∀ u, ¬ c { s with stack := v :: v :: st } (.ret u)
  noMatch exits default rest s := exits = true →
    (∀ u, ¬ default s (.ret u)) ∧ (rest = [] ∨ ∃ e es, rest = e :: es ∧ isExitWord t e = true)

theorem exitRules_test_safe {t : Dict Span Target} (c : Command Obj World PUnit) :
    Cmd.SafeNoRet (Cmd.guard ((exitRules t).test c) >>= fun _ => armTest V true c) := by
  intro s hs u hu
  have htest := Cmd.guard_bind_fault hs
  rw [Cmd.guard_bind_ok htest] at hs hu
  cases hst : s.stack with
  | nil => exact pop_bind_nil hst _ _ hu
  | cons v st =>
    rw [armTest_true_apply hst] at hu
    rcases Cmd.bind_ret.1 hu with ⟨a, w, -, hw⟩ | hret
    · exact ((Cmd.NoRet.ofOption _).bind fun _ => (Cmd.NoRet.ofOption _).bind fun _ =>
        Cmd.NoRet.pure _) w u hw
    · exact htest v st hst u hret

theorem exitRules_agree (t : Dict Span Target) :
    Agree V (exitRules t) (Rules.free true) :=
  Agree.of_free true fun _ _ h => guard_safe _ _ _ (armTest_safe h true)

mutual
theorem execExpr_safeNoRet (hw : Wide r) (rest : List Expr) : ∀ e : Expr,
    plainExpr r.wordTargets e = true → exprUsesExit r.wordTargets e = false →
    Cmd.SafeNoRet (execExpr V r (exitRules r.wordTargets) rest e)
  | .lit l, _, _ => by
    rw [execExpr]
    exact (execLiteral_noRet l).safe
  | .wordRef name span, _, hexit => by
    rw [execExpr]
    exact (execWord_noRet hexit).safe
  | .ifElse thenBody none sp, h, hexit => by
    rw [plainExpr] at h
    rw [exprUsesExit] at hexit
    rw [execExpr]
    exact popFlag_noRet.safe.bind fun _ =>
      (inScope_safeNoRet (execSeq_safeNoRet hw rest thenBody h hexit)).ite (Cmd.NoRet.pure _).safe
  | .ifElse thenBody (some elseBody) sp, h, hexit => by
    rw [plainExpr, Bool.and_eq_true] at h
    rw [exprUsesExit, Bool.or_eq_false_iff] at hexit
    rw [execExpr]
    exact popFlag_noRet.safe.bind fun _ =>
      (inScope_safeNoRet (execSeq_safeNoRet hw rest thenBody h.1 hexit.1)).ite
        (inScope_safeNoRet (execSeq_safeNoRet hw rest elseBody h.2 hexit.2))
  | .beginUntil body sp, h, hexit => by
    rw [plainExpr, Bool.and_eq_true] at h
    rw [exprUsesExit] at hexit
    rw [execExpr]
    exact (inScope_safeNoRet ((execSeq_safeNoRet hw [] body h.1 hexit).bind fun _ =>
      (popFlag_noRet.bind fun _ => Cmd.NoRet.pure _).safe)).loop.bind
        fun _ => (Cmd.NoRet.guard _).safe
  | .beginAgain body sp, h, hexit => by
    rw [plainExpr, Bool.and_eq_true] at h
    rw [exprUsesExit] at hexit
    rw [execExpr]
    exact (inScope_safeNoRet ((execSeq_safeNoRet hw [] body h.1 hexit).bind fun _ =>
      (Cmd.NoRet.pure _).safe)).loop.bind fun _ => (Cmd.NoRet.guard _).safe
  | .beginWhileRepeat pred body sp, h, hexit => by
    rw [plainExpr, Bool.and_eq_true, Bool.and_eq_true] at h
    rw [exprUsesExit, Bool.or_eq_false_iff] at hexit
    rw [execExpr]
    exact (inScope_safeNoRet ((execSeq_safeNoRet hw [] pred h.1.1 hexit.1).bind fun _ =>
      popFlag_noRet.safe.bind fun _ =>
        ((inScope_safeNoRet (execSeq_safeNoRet hw [] body h.1.2 hexit.2)).bind fun _ =>
          (Cmd.NoRet.pure _).safe).ite (Cmd.NoRet.pure _).safe)).loop.bind
        fun _ => (Cmd.NoRet.guard _).safe
  | .doLoop isQdo body loopKind sp, h, hexit => by
    rw [plainExpr, Bool.and_eq_true] at h
    rw [exprUsesExit] at hexit
    rw [execExpr]
    exact (enterLoop_safeNoRet (countedLoop_safeNoRet
      (execSeq_safeNoRet hw [] body h.1 hexit) loopKind) isQdo).bind
        fun _ => (Cmd.NoRet.guard _).safe
  | .caseOf arms none sp, h, hexit => by
    rw [plainExpr] at h
    rw [exprUsesExit] at hexit
    rw [execExpr]
    exact execArms_safeNoRet hw rest arms _ h hexit
      ((Cmd.NoRet.guard _).bind fun _ => dropTop_noRet).safe
  | .caseOf arms (some default) sp, h, hexit => by
    rw [plainExpr, Bool.and_eq_true] at h
    rw [exprUsesExit, Bool.or_eq_false_iff] at hexit
    rw [execExpr]
    exact execArms_safeNoRet hw rest arms _ h.1 hexit.1 ((Cmd.NoRet.guard _).safe.bind fun _ =>
      (execSeq_safeNoRet hw rest default h.2 hexit.2).bind fun _ => dropTop_noRet.safe)

theorem execArms_safeNoRet (hw : Wide r) (rest : List Expr) :
    ∀ (arms : List (CaseArm Expr)) (base : Command Obj World PUnit),
    plainArms r.wordTargets arms = true → armsUseExit r.wordTargets arms = false →
    Cmd.SafeNoRet base →
    Cmd.SafeNoRet (execArms V r (exitRules r.wordTargets) rest arms base)
  | [], base, _, _, hbase => by
    rw [execArms]
    exact hbase
  | ⟨matchExpr, body, _⟩ :: arms, base, h, hexit, hbase => by
    rw [plainArms, Bool.and_eq_true, Bool.and_eq_true] at h
    rw [armsUseExit, Bool.or_eq_false_iff] at hexit
    have hbody := execSeq_safeNoRet hw rest body h.1.2 hexit.1
    have harms := execArms_safeNoRet hw rest arms base h.2 hexit.2 hbase
    rw [execArms, ← bind_assoc]
    exact (exitRules_test_safe _).bind fun _ =>
      (inScope_safeNoRet (dropTop_noRet.safe.bind fun _ => hbody)).ite (inScope_safeNoRet harms)

theorem execSeq_safeNoRet (hw : Wide r) (rest : List Expr) : ∀ es : List Expr,
    plainSeq r.wordTargets es = true → bodyUsesExit r.wordTargets es = false →
    Cmd.SafeNoRet (execSeq V r (exitRules r.wordTargets) rest es)
  | [], _, _ => by
    rw [execSeq]
    exact (Cmd.NoRet.pure _).safe
  | e :: es, h, hexit => by
    rw [plainSeq, Bool.and_eq_true] at h
    rw [bodyUsesExit, Bool.or_eq_false_iff] at hexit
    rw [execSeq_cons hw]
    exact (execExpr_safeNoRet hw (es ++ rest) e h.1 hexit.1).bind fun _ =>
      execSeq_safeNoRet hw rest es h.2 hexit.2
end

/-! The pass. -/

theorem execExpr_exit {e : Expr} (h : isExitWord r.wordTargets e = true) (rest : List Expr) :
    execExpr V r R rest e = Cmd.exit := by
  cases e with
  | wordRef name span =>
    have ht : r.wordTargets.lookup span = some Target.exit := by
      simpa only [isExitWord, beq_iff_eq] using h
    rw [execExpr, execWord, ht]
    rfl
  | _ => cases h

theorem execExpr_ifElse_plain (hw : Wide r) {rest thenBody : List Expr}
    {elseBody : Option (List Expr)} (sp : Span) (hthen : plainSeq r.wordTargets thenBody = true)
    (helse : plainSeq r.wordTargets (elseBody.getD []) = true) :
    execExpr V r R rest (.ifElse thenBody elseBody sp) = (do
      if ← popFlag V then execSeq V r R rest thenBody
      else execSeq V r R rest (elseBody.getD [])) := by
  rw [execExpr_ifElse, (plainSeq_keepsEnv hw _ rest _ hthen).inScope_eq,
    (plainSeq_keepsEnv hw _ rest _ helse).inScope_eq]

/-- IF with the code behind it in its branches. -/
theorem execSeq_ifElse_tail (hw : Wide r) {thenBody tail : List Expr}
    {elseBody : Option (List Expr)} (sp : Span) (hthen : plainSeq r.wordTargets thenBody = true)
    (helse : plainSeq r.wordTargets (elseBody.getD []) = true) :
    execSeq V r R [] (.ifElse thenBody elseBody sp :: tail) = (do
      if ← popFlag V then execSeq V r R [] (thenBody ++ tail)
      else execSeq V r R [] (elseBody.getD [] ++ tail)) := by
  rw [execSeq_cons hw, execExpr_ifElse_plain hw sp hthen helse, bind_assoc]
  refine congrArg _ (funext fun b => ?_)
  cases b with
  | true => exact (execSeq_append hw [] thenBody tail).symm
  | false => exact (execSeq_append hw [] (elseBody.getD []) tail).symm

/-- Each arm with the code behind the CASE in it. -/
theorem execArms_safe_tail (hw : Wide r) {tail : List Expr} {base base' : Command Obj World PUnit}
    {k : Nat} (ih : ∀ xs, seqSize xs < k → plainSeq r.wordTargets xs = true →
      Cmd.SafeEq ((execSeq V r (exitRules r.wordTargets) [] (xs ++ tail)).catchRet id)
        (execSeq V r (Rules.free true) [] (lowerSeq r.wordTargets (xs ++ tail)).1))
    (hplain : ∀ xs, seqSize xs < k → plainSeq r.wordTargets xs = true →
      plainSeq r.wordTargets (lowerSeq r.wordTargets (xs ++ tail)).1 = true)
    (hkeeps : KeepsEnv base) (hkeeps' : KeepsEnv base')
    (hbase : Cmd.SafeEq ((base >>= fun _ =>
      execSeq V r (exitRules r.wordTargets) [] tail).catchRet id) base')
    (arms : List (CaseArm Expr)) (hn : armsSize arms < k)
    (harms : plainArms r.wordTargets arms = true) :
    Cmd.SafeEq ((execArms V r (exitRules r.wordTargets) tail arms base >>= fun _ =>
        execSeq V r (exitRules r.wordTargets) [] tail).catchRet id)
      (execArms V r (Rules.free true) [] (lowerArms r.wordTargets arms tail).1 base') := by
  induction arms with
  | nil =>
    rw [lowerArms, execArms, execArms]
    exact hbase
  | cons a arms iharms =>
    obtain ⟨matchExpr, body, span⟩ := a
    rw [plainArms, Bool.and_eq_true, Bool.and_eq_true] at harms
    rw [armsSize] at hn
    have hrest := iharms (by omega) harms.2
    have hbody := ih body (by omega) harms.1.2
    have hlower : (lowerArms r.wordTargets (⟨matchExpr, body, span⟩ :: arms) tail).1 =
        ⟨matchExpr, (lowerSeq r.wordTargets (body ++ tail)).1, span⟩ ::
          (lowerArms r.wordTargets arms tail).1 := by
      rw [lowerArms_fst, lowerArms_fst, List.map_cons]
    -- nothing here binds a local, so the scopes may be forgotten on both sides
    have hscope : ∀ (R : Rules Obj World) rest xs, plainSeq r.wordTargets xs = true →
        inScope (dropTop >>= fun _ => execSeq V r R rest xs) =
          (dropTop >>= fun _ => execSeq V r R rest xs) := fun R rest xs hxs =>
      (dropTop_keepsEnv.bind fun _ => plainSeq_keepsEnv hw _ rest xs hxs).inScope_eq
    have hlowerArms := plain_lowerArms hplain arms (by omega) harms.2
    rw [hlower, execArms, execArms, hscope _ _ _ harms.1.2,
      hscope _ _ _ (hplain body (by omega) harms.1.2),
      (plainArms_keepsEnv hw _ tail arms _ harms.2 hkeeps).inScope_eq,
      (plainArms_keepsEnv hw _ [] _ _ hlowerArms hkeeps').inScope_eq,
      ← bind_assoc, ← bind_assoc, bind_assoc]
    refine (exitRules_test_safe _).catchRet_bind.trans ?_
    refine ((exitRules_agree _).test _ _ (execSeq_safe (exitRules_agree _) [] [] matchExpr)).bind
      fun b => ?_
    cases b with
    | false => exact hrest
    | true =>
      show Cmd.SafeEq (((dropTop >>= fun _ => execSeq V r _ tail body) >>= fun _ => _).catchRet id) _
      rw [bind_assoc]
      refine dropTop_noRet.safe.catchRet_bind.trans ((Cmd.SafeEq.refl _).bind fun _ => ?_)
      have happend := execSeq_append (V := V) (R := exitRules r.wordTargets) hw [] body tail
      rw [List.append_nil] at happend
      rw [← happend]
      exact hbody

/-- The no-match path with the code behind the CASE, which the demand leaves empty or at EXIT. -/
theorem noMatchPath_safe_tail (hw : Wide r) {arms : List (CaseArm Expr)} {default tail : List Expr}
    {low : Command Obj World PUnit}
    (hexits : (armsUseExit r.wordTargets arms || bodyUsesExit r.wordTargets default) = true)
    (ih : Cmd.SafeEq ((execSeq V r (exitRules r.wordTargets) [] (default ++ tail)).catchRet id)
      low) :
    Cmd.SafeEq ((noMatchPath V r (exitRules r.wordTargets) tail arms default >>= fun _ =>
        execSeq V r (exitRules r.wordTargets) [] tail).catchRet id)
      (low >>= fun _ => dropTop) := by
  intro s hs out
  rw [Cmd.catchRet_fault] at hs
  unfold noMatchPath at hs ⊢
  rw [bind_assoc] at hs ⊢
  have hdemand := Cmd.guard_bind_fault hs
  obtain ⟨hnoRet, htail⟩ := hdemand hexits
  have hends : (execSeq V r (exitRules r.wordTargets) [] tail).catchRet id = pure ⟨⟩ := by
    rcases htail with rfl | ⟨e, es, rfl, he⟩
    · rw [execSeq, Cmd.catchRet_pure]
    · rw [execSeq_cons hw, execExpr_exit he, Cmd.exit_bind, Cmd.catchRet_exit]
  rw [Cmd.guard_bind_ok hdemand, bind_assoc] at hs
  have hdefault : ∀ out, (execSeq V r (exitRules r.wordTargets) [] (default ++ tail)).catchRet id
      s out ↔ execSeq V r (exitRules r.wordTargets) tail default s out := fun out => by
    rw [execSeq_append hw, List.append_nil, Cmd.catchRet_bind_at hnoRet]
    simp only [hends, bind_pure_unit]
  have hfault : ¬ (execSeq V r (exitRules r.wordTargets) [] (default ++ tail)).catchRet id
      s .fault := by
    rw [hdefault]
    exact fun hf => hs (Cmd.bind_fault.2 (Or.inr hf))
  have hlow : (low >>= fun _ => dropTop) s out ↔
      (execSeq V r (exitRules r.wordTargets) tail default >>= fun _ => dropTop) s out := by
    simp only [Cmd.bind_apply, ih s hfault, hdefault]
  have hcatch : ((Cmd.guard ((exitRules r.wordTargets).noMatch (armsUseExit r.wordTargets arms ||
      bodyUsesExit r.wordTargets default) (execSeq V r (exitRules r.wordTargets) tail default)
      tail) >>= fun _ => (do execSeq V r (exitRules r.wordTargets) tail default; dropTop) >>=
      fun _ => execSeq V r (exitRules r.wordTargets) [] tail).catchRet id) s out ↔
      (execSeq V r (exitRules r.wordTargets) tail default >>= fun _ => dropTop) s out := by
    rw [Cmd.catchRet_bind_at fun u hu => Cmd.NoRet.guard _ s u hu, Cmd.guard_bind_ok hdemand,
      Cmd.catchRet_bind_at, hends, bind_pure_unit]
    intro u hu
    rcases Cmd.bind_ret.1 hu with ⟨a, w, -, hw⟩ | hret
    · exact dropTop_noRet w u hw
    · exact hnoRet u hret
  exact hlow.trans hcatch.symm

/-- The pass, caught: the lowered code ends where the source ends or leaves. -/
theorem lowerSeq_safe (hw : Wide r) (n : Nat) : ∀ seq : List Expr, seqSize seq ≤ n →
    plainSeq r.wordTargets seq = true →
    Cmd.SafeEq ((execSeq V r (exitRules r.wordTargets) [] seq).catchRet id)
      (execSeq V r (Rules.free true) [] (lowerSeq r.wordTargets seq).1) := by
  -- the pass moves the tail into the arms, so the induction is on the size and not on the list
  induction n with
  | zero =>
    intro seq hn _
    cases seq with
    | nil =>
      rw [lowerSeq, execSeq, execSeq, Cmd.catchRet_pure]
      exact Cmd.SafeEq.refl _
    | cons e tail =>
      have hpos := Expr.size_pos e
      rw [seqSize] at hn
      omega
  | succ n ih =>
    intro seq hn hplain
    cases seq with
    | nil =>
      rw [lowerSeq, execSeq, execSeq, Cmd.catchRet_pure]
      exact Cmd.SafeEq.refl _
    | cons e tail =>
      have hpos := Expr.size_pos e
      rw [seqSize] at hn
      rw [plainSeq, Bool.and_eq_true] at hplain
      cases huses : exprUsesExit r.wordTargets e with
      -- no exit inside: the expression stays as it is
      | false =>
        rw [lowerSeq_cons_free huses, execSeq_cons hw, execSeq_cons hw]
        exact (execExpr_safeNoRet hw _ e hplain.1 huses).catchRet_bind.trans
          ((execExpr_safe (exitRules_agree _) _ _ e).bind fun _ => ih tail (by omega) hplain.2)
      | true =>
        -- each body the tail is moved into, with the tail, is smaller than the whole
        have hsizes : ∀ xs, seqSize xs < e.size → seqSize (xs ++ tail) ≤ n := fun xs hxs => by
          rw [seqSize_append]
          omega
        have hplains : ∀ xs, plainSeq r.wordTargets xs = true →
            plainSeq r.wordTargets (xs ++ tail) = true := fun xs hxs => by
          rw [plainSeq_append, hxs, hplain.2]
          rfl
        have hsafe : ∀ xs, seqSize xs < e.size → plainSeq r.wordTargets xs = true →
            Cmd.SafeEq ((execSeq V r (exitRules r.wordTargets) [] (xs ++ tail)).catchRet id)
              (execSeq V r (Rules.free true) [] (lowerSeq r.wordTargets (xs ++ tail)).1) :=
          fun xs hxs hp => ih _ (hsizes xs hxs) (hplains xs hp)
        have hlow : ∀ xs, seqSize xs < e.size → plainSeq r.wordTargets xs = true →
            plainSeq r.wordTargets (lowerSeq r.wordTargets (xs ++ tail)).1 = true :=
          fun xs hxs hp => plain_lowerSeq n _ (hsizes xs hxs) (hplains xs hp)
        rcases plain_usesExit hplain.1 huses with
          hexit | ⟨thenBody, elseBody, sp, rfl⟩ | ⟨arms, default, sp, rfl⟩
        · -- EXIT itself: the tail is dropped
          rw [lowerSeq_exit hexit, execSeq_cons hw, execExpr_exit hexit, Cmd.exit_bind,
            Cmd.catchRet_exit, execSeq]
          exact Cmd.SafeEq.refl _
        · have hparts := hplain.1
          rw [plainExpr_ifElse, Bool.and_eq_true] at hparts
          have hsize := Expr.size_ifElse thenBody elseBody sp
          have helse : plainSeq r.wordTargets
              ((some (lowerSeq r.wordTargets (elseBody.getD [] ++ tail)).1).getD []) = true :=
            hlow (elseBody.getD []) (by omega) hparts.2
          rw [lowerSeq_ifElse_exit huses, execSeq_ifElse_tail hw sp hparts.1 hparts.2, execSeq,
            execExpr_ifElse_plain hw sp (hlow thenBody (by omega) hparts.1) helse]
          refine popFlag_noRet.safe.catchRet_bind.trans ((Cmd.SafeEq.refl _).bind fun b => ?_)
          rw [Cmd.catchRet_ite]
          exact (hsafe thenBody (by omega) hparts.1).ite
            (hsafe (elseBody.getD []) (by omega) hparts.2)
        · have hparts := hplain.1
          rw [plainExpr_caseOf, Bool.and_eq_true] at hparts
          have hexits := huses
          rw [exprUsesExit_caseOf] at hexits
          have hsize := Expr.size_caseOf arms default sp
          obtain ⟨default', hdefault, hlower⟩ := lowerSeq_caseOf_exit huses tail
          have hbase := noMatchPath_safe_tail hw hexits
            (hsafe (default.getD []) (by omega) hparts.2)
          have hkeeps := plainSeq_keepsEnv (V := V) (R := Rules.free true) hw _ [] _
            (hlow (default.getD []) (by omega) hparts.2)
          have hfree : noMatchPath V r (Rules.free true) [] (lowerArms r.wordTargets arms tail).1
              (default'.getD []) =
              (execSeq V r (Rules.free true) []
                (lowerSeq r.wordTargets (default.getD [] ++ tail)).1 >>= fun _ => dropTop) := by
            rw [hdefault]
            exact guard_free (fun _ => trivial) _
          rw [hlower, execSeq_cons hw, execExpr_caseOf, execSeq, execExpr_caseOf, hfree,
            List.append_nil]
          exact execArms_safe_tail hw hsafe hlow
            (noMatchPath_keepsEnv (plainSeq_keepsEnv hw _ _ _ hparts.2))
            (hkeeps.bind fun _ => dropTop_keepsEnv) hbase arms (by omega) hparts.1

end Runs

/-- Lowered code ends exactly where the source ends or leaves by EXIT, from every state that no
demand of `exitRules` fails from. -/
theorem lowerBody_wide (V : Vm Obj World) (r : Sema) (hw : Wide r) (b : List Expr)
    (hb : plainSeq r.wordTargets b = true) (s : State Obj World)
    (hs : ¬ execSeq V r (exitRules r.wordTargets) [] b s .fault) :
    (∀ t, run V (emitExprs r (lowerBody b r.wordTargets)) s (.ok ⟨⟩ t) ↔
      execSeq V r (Rules.free true) [] b s (.ok ⟨⟩ t) ∨
        execSeq V r (Rules.free true) [] b s (.ret t)) ∧
    ∀ t, ¬ run V (emitExprs r (lowerBody b r.wordTargets)) s (.ret t) := by
  have hlow := lowerSeq_safe (V := V) hw _ b (Nat.le_refl _) hb s
    (fun hf => hs (Cmd.catchRet_fault.1 hf))
  have hsource := execSeq_safe (r := r) (exitRules_agree (V := V) r.wordTargets) [] [] b s hs
  rw [run_emitExprs V r []]
  constructor
  · intro t
    refine (hlow _).trans ?_
    rw [hsource, hsource]
    constructor
    · rintro (⟨h, -⟩ | ⟨u, h, hu⟩)
      · exact Or.inl h
      · cases hu
        exact Or.inr h
    · rintro (h | h)
      · exact Or.inl ⟨h, fun u hu => nomatch hu⟩
      · exact Or.inr ⟨t, h, rfl⟩
  · intro t h
    rcases (hlow _).1 h with ⟨-, hne⟩ | ⟨u, -, hu⟩
    · exact hne t rfl
    · cases hu

/-- Emission node by node, without the fusion of a variable and the access behind it. -/
def nodewise (r : Sema) : Sema := { r with escape := [] }

theorem lowerBody_sound (V : Vm Obj World) (r : Sema) (b : List Expr)
    (hb : plainSeq r.wordTargets b = true) (s : State Obj World)
    (hs : ¬ execSeq V (nodewise r) (exitRules r.wordTargets) [] b s .fault) :
    (∀ t, run V (emitExprs (nodewise r) (lowerBody b r.wordTargets)) s (.ok ⟨⟩ t) ↔
      execSeq V (nodewise r) (Rules.free true) [] b s (.ok ⟨⟩ t) ∨
        execSeq V (nodewise r) (Rules.free true) [] b s (.ret t)) ∧
    ∀ t, ¬ run V (emitExprs (nodewise r) (lowerBody b r.wordTargets)) s (.ret t) :=
  lowerBody_wide V (nodewise r) (fun _ h => nomatch h) b hb s hs

section Examples

/-- `if 1 exit then 2`. -/
def exitInIf : List Expr :=
  [.ifElse [.lit (.int 1 (tokenSpan 2)), .wordRef "exit" (tokenSpan 3)] none (tokenSpan 1),
    .lit (.int 2 (tokenSpan 4))]

/-- `case 1 of 10 exit endof endcase 99`. -/
def exitInCase : List Expr :=
  [.caseOf [⟨[.lit (.int 1 (tokenSpan 2))],
      [.lit (.int 10 (tokenSpan 4)), .wordRef "exit" (tokenSpan 5)], tokenSpan 3⟩] none
    (tokenSpan 1), .lit (.int 99 (tokenSpan 6))]

def exitSema : Sema := bareSema [(tokenSpan 3, Target.exit), (tokenSpan 5, Target.exit)]

theorem exitSema_wide : Wide exitSema := fun _ h => nomatch h

theorem exec_exitInIf (R : Rules Unit Unit) :
    execSeq coreVm exitSema R [] exitInIf (coreState [.int 3]) =
      (Cmd.exit : Command Unit Unit PUnit) (coreState [.int 1]) := by
  rw [exitInIf, execSeq_ifElse_tail exitSema_wide _ rfl rfl]
  unfold popFlag
  rw [bind_assoc, pop_core, pure_bind]
  show execSeq coreVm exitSema R [] [.lit (.int 1 (tokenSpan 2)), .wordRef "exit" (tokenSpan 3),
    .lit (.int 2 (tokenSpan 4))] _ = _
  rw [execSeq_cons exitSema_wide, execExpr, execLiteral, push_core, execSeq_cons exitSema_wide,
    execExpr_exit (by decide), Cmd.exit_bind]

theorem lowerBody_sound_exitInIf :
    run coreVm (emitExprs exitSema (lowerBody exitInIf exitSema.wordTargets)) (coreState [.int 3])
      (.ok ⟨⟩ (coreState [.int 1])) := by
  refine ((lowerBody_sound coreVm exitSema exitInIf rfl (coreState [.int 3]) ?_).1 _).2 (Or.inr ?_)
  · show ¬ execSeq coreVm exitSema _ [] exitInIf _ _
    rw [exec_exitInIf]
    exact fun h => nomatch h
  · show execSeq coreVm exitSema _ [] exitInIf _ _
    rw [exec_exitInIf]
    rfl

theorem exec_exitInCase :
    execSeq coreVm exitSema (Rules.free true) [] exitInCase (coreState [.int 5]) =
      (pure ⟨⟩ : Command Unit Unit PUnit) (coreState [.int 99]) := by
  have hcase : ∀ rest, execExpr coreVm exitSema (Rules.free true) rest
      (.caseOf [⟨[.lit (.int 1 (tokenSpan 2))], [.lit (.int 10 (tokenSpan 4)),
        .wordRef "exit" (tokenSpan 5)], tokenSpan 3⟩] none (tokenSpan 1)) (coreState [.int 5]) =
      (pure ⟨⟩ : Command Unit Unit PUnit) (coreState []) := fun rest => by
    rw [execExpr_caseOf, execArms_core _ _ _ trivial, if_neg (by decide)]
    refine inScope_core ?_
    rw [execArms]
    refine Eq.trans (Cmd.guard_bind_ok trivial _) ?_
    rw [Option.getD, execSeq, pure_bind]
    exact pop_core _ _ _
  rw [exitInCase, execSeq_cons exitSema_wide, Cmd.bind_of_pure (hcase _), execSeq, execExpr]
  exact push_apply _ _

theorem exec_lowered_exitInCase :
    execSeq coreVm exitSema (Rules.free true) [] (lowerBody exitInCase exitSema.wordTargets)
      (coreState [.int 5]) = (pure ⟨⟩ : Command Unit Unit PUnit) (coreState [.int 5]) := by
  have hexit : exprUsesExit exitSema.wordTargets (.caseOf [⟨[.lit (.int 1 (tokenSpan 2))],
      [.lit (.int 10 (tokenSpan 4)), .wordRef "exit" (tokenSpan 5)], tokenSpan 3⟩] none
      (tokenSpan 1)) = true := by decide
  obtain ⟨default', hdefault, hlower⟩ := lowerSeq_caseOf_exit hexit [.lit (.int 99 (tokenSpan 6))]
  have htail : (lowerSeq exitSema.wordTargets
      ([] ++ [.lit (.int 99 (tokenSpan 6))])).1 = [.lit (.int 99 (tokenSpan 6))] :=
    lowerSeq_free 1 _ (by decide) (by decide)
  rw [Option.getD, htail] at hdefault
  rw [lowerBody, exitInCase, hlower, execSeq, execExpr_caseOf, lowerArms_fst, List.map_cons,
    execArms_core _ _ _ trivial, if_neg (by decide)]
  refine inScope_core ?_
  rw [List.map_nil, execArms]
  refine Eq.trans (Cmd.guard_bind_ok trivial _) ?_
  rw [hdefault, execSeq, execExpr, execLiteral, push_core]
  exact pop_core _ _ _

/-- On `5` the lowered `case 1 of 10 exit endof endcase 99` drops the 99 and keeps the 5. -/
theorem lowerBody_not_sound : ¬ ∀ (V : Vm Unit Unit) (r : Sema) (b : List Expr)
    (_ : plainSeq r.wordTargets b = true) (s t : State Unit Unit),
    run V (emitExprs (nodewise r) (lowerBody b r.wordTargets)) s (.ok ⟨⟩ t) ↔
      execSeq V (nodewise r) (Rules.free true) [] b s (.ok ⟨⟩ t) ∨
        execSeq V (nodewise r) (Rules.free true) [] b s (.ret t) := by
  intro h
  have hrun : run coreVm (emitExprs exitSema (lowerBody exitInCase exitSema.wordTargets))
      (coreState [.int 5]) (.ok ⟨⟩ (coreState [.int 5])) ↔
      execSeq coreVm exitSema (Rules.free true) [] exitInCase (coreState [.int 5])
        (.ok ⟨⟩ (coreState [.int 5])) ∨
      execSeq coreVm exitSema (Rules.free true) [] exitInCase (coreState [.int 5])
        (.ret (coreState [.int 5])) := h coreVm exitSema exitInCase rfl _ _
  rw [run_emitExprs coreVm exitSema [], exec_lowered_exitInCase, exec_exitInCase] at hrun
  rcases hrun.1 rfl with hok | hret
  · have hout : Out.ok PUnit.unit (coreState [.int 5]) = .ok ⟨⟩ (coreState [.int 99]) := hok
    simp [coreState] at hout
  · cases hret

end Examples

end FactorForth.Correctness
