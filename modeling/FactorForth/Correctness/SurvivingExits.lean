import FactorForth.Correctness.OwnTargets

/-! What the EXIT pass leaves behind. Loops and the match expressions of CASE are copied as they are, so
the EXITs of a lowered body are those of its loops, where they are looked for, and those of its match
expressions, where they are not. -/

namespace FactorForth.Correctness
open FactorForth.Library FactorForth.Compiler

/-! The parts that are copied. -/

inductive Part where
  | loop (e : Expr)
  | matched (es : List Expr)

/-- What a part holds, at any depth. -/
def Part.leaves : Part → List Expr
  | .loop e => exprLeaves e
  | .matched es => Compiler.leaves es

mutual
/-- Every path through the node leaves by EXIT. -/
def exprEnds (t : Dict Span Target) : Expr → Bool
  | .wordRef name span => isExitWord t (.wordRef name span)
  | .ifElse thenBody (some elseBody) _ => seqEnds t thenBody && seqEnds t elseBody
  | .caseOf arms (some default) _ => armsEnd t arms && seqEnds t default
  | _ => false

def armsEnd (t : Dict Span Target) : List (CaseArm Expr) → Bool
  | [] => true
  | ⟨_, body, _⟩ :: arms => seqEnds t body && armsEnd t arms

def seqEnds (t : Dict Span Target) : List Expr → Bool
  | [] => false
  | e :: es => exprEnds t e || seqEnds t es
end

mutual
/-- The loops and match expressions outside of other ones, up to where every path has left. -/
def exprParts (t : Dict Span Target) : Expr → List Part
  | .ifElse thenBody none _ => seqParts t thenBody
  | .ifElse thenBody (some elseBody) _ => seqParts t thenBody ++ seqParts t elseBody
  | .caseOf arms none _ => armsParts t arms
  | .caseOf arms (some default) _ => armsParts t arms ++ seqParts t default
  | .beginUntil body span => [.loop (.beginUntil body span)]
  | .beginAgain body span => [.loop (.beginAgain body span)]
  | .beginWhileRepeat pred body span => [.loop (.beginWhileRepeat pred body span)]
  | .doLoop isQdo body loopKind span => [.loop (.doLoop isQdo body loopKind span)]
  | _ => []

def armsParts (t : Dict Span Target) : List (CaseArm Expr) → List Part
  | [] => []
  | ⟨matchExpr, body, _⟩ :: arms => .matched matchExpr :: seqParts t body ++ armsParts t arms

def seqParts (t : Dict Span Target) : List Expr → List Part
  | [] => []
  | e :: es => exprParts t e ++ if exprEnds t e then [] else seqParts t es
end

mutual
/-- The expressions without bodies that stand in no loop. -/
def exprOutside : Expr → List Expr
  | .ifElse thenBody none _ => outside thenBody
  | .ifElse thenBody (some elseBody) _ => outside thenBody ++ outside elseBody
  | .caseOf arms none _ => armsOutside arms
  | .caseOf arms (some default) _ => armsOutside arms ++ outside default
  | .beginUntil _ _ | .beginAgain _ _ | .beginWhileRepeat _ _ _ | .doLoop _ _ _ _ => []
  | e => [e]

def armsOutside : List (CaseArm Expr) → List Expr
  | [] => []
  | ⟨matchExpr, body, _⟩ :: arms => outside matchExpr ++ outside body ++ armsOutside arms

def outside : List Expr → List Expr
  | [] => []
  | e :: es => exprOutside e ++ outside es
end

section
variable {t : Dict Span Target}

theorem exprEnds_ifElse (thenBody : List Expr) (elseBody : Option (List Expr)) (span : Span) :
    exprEnds t (.ifElse thenBody elseBody span) =
      (seqEnds t thenBody && seqEnds t (elseBody.getD [])) := by
  cases elseBody with
  | none => simp [exprEnds, seqEnds]
  | some elseBody => rw [exprEnds, Option.getD]

theorem exprEnds_caseOf (arms : List (CaseArm Expr)) (default : Option (List Expr)) (span : Span) :
    exprEnds t (.caseOf arms default span) = (armsEnd t arms && seqEnds t (default.getD [])) := by
  cases default with
  | none => simp [exprEnds, seqEnds]
  | some default => rw [exprEnds, Option.getD]

theorem mem_ifElse_parts {thenBody : List Expr} {elseBody : Option (List Expr)} {span : Span}
    {p : Part} : p ∈ exprParts t (.ifElse thenBody elseBody span) ↔
      p ∈ seqParts t thenBody ∨ p ∈ seqParts t (elseBody.getD []) := by
  cases elseBody <;> simp [exprParts, seqParts]

theorem mem_caseOf_parts {arms : List (CaseArm Expr)} {default : Option (List Expr)} {span : Span}
    {p : Part} : p ∈ exprParts t (.caseOf arms default span) ↔
      p ∈ armsParts t arms ∨ p ∈ seqParts t (default.getD []) := by
  cases default <;> simp [exprParts, seqParts]

theorem mem_armsParts {arms : List (CaseArm Expr)} {p : Part} : p ∈ armsParts t arms ↔
    ∃ a ∈ arms, p = .matched a.matchExpr ∨ p ∈ seqParts t a.body := by
  induction arms with
  | nil => simp [armsParts]
  | cons a arms ih =>
    obtain ⟨matchExpr, body, span⟩ := a
    simp [armsParts, ih, or_assoc]

theorem armsUseExit_iff {arms : List (CaseArm Expr)} :
    armsUseExit t arms = true ↔ ∃ a ∈ arms, bodyUsesExit t a.body = true := by
  induction arms with
  | nil => simp [armsUseExit]
  | cons a arms ih =>
    obtain ⟨matchExpr, body, span⟩ := a
    simp [armsUseExit, ih]

/-- Code behind other code counts where that does not leave on every path. -/
theorem mem_parts_append {xs ys : List Expr} {p : Part} : p ∈ seqParts t (xs ++ ys) ↔
    p ∈ seqParts t xs ∨ seqEnds t xs = false ∧ p ∈ seqParts t ys := by
  induction xs with
  | nil => simp [seqParts, seqEnds]
  | cons x xs ih =>
    rw [List.cons_append, seqParts, seqParts, seqEnds]
    cases exprEnds t x with
    | true => simp
    | false => simp [ih, or_assoc]

mutual
/-- What leaves on every path has an EXIT in it. -/
theorem exprEnds_uses : ∀ e : Expr, exprEnds t e = true → exprUsesExit t e = true
  | .wordRef name span => fun h => by
    rw [exprEnds] at h
    exact h
  | .ifElse thenBody none span => fun h => by
    rw [exprEnds] at h
    all_goals cases h
  | .ifElse thenBody (some elseBody) span => fun h => by
    rw [exprEnds_ifElse, Bool.and_eq_true] at h
    rw [exprUsesExit_ifElse, seqEnds_uses thenBody h.1, Bool.true_or]
  | .caseOf arms none span => fun h => by
    rw [exprEnds] at h
    all_goals cases h
  | .caseOf arms (some default) span => fun h => by
    rw [exprEnds_caseOf, Bool.and_eq_true] at h
    rw [exprUsesExit_caseOf, Option.getD, seqEnds_uses default h.2, Bool.or_true]
  | .lit _ | .tick _ _ | .toValue _ _ | .see _ _ | .letForm _ _ | .locals _ _ | .beginUntil _ _
  | .beginAgain _ _ | .beginWhileRepeat _ _ _ | .doLoop _ _ _ _ => fun h => by
    rw [exprEnds] at h
    all_goals cases h

theorem seqEnds_uses : ∀ es : List Expr, seqEnds t es = true → bodyUsesExit t es = true
  | [] => fun h => by
    rw [seqEnds] at h
    cases h
  | e :: es => fun h => by
    rw [seqEnds, Bool.or_eq_true] at h
    rw [bodyUsesExit, Bool.or_eq_true]
    exact h.imp (exprEnds_uses e) (seqEnds_uses es)
end

/-! Lowered code. -/

/-- Code that the pass leaves as it is: no EXIT of its own, and nothing behind a branch with EXIT in it. -/
inductive Settled (t : Dict Span Target) : List Expr → Prop
  | nil : Settled t []
  | other {e : Expr} {tail : List Expr} (hWord : isExitWord t e = false)
      (hIf : ∀ thenBody elseBody span, e ≠ .ifElse thenBody elseBody span)
      (hCase : ∀ arms default span, e ≠ .caseOf arms default span) (hTail : Settled t tail) :
      Settled t (e :: tail)
  | ifElse {thenBody tail : List Expr} {elseBody : Option (List Expr)} {span : Span}
      (hThen : Settled t thenBody) (hElse : Settled t (elseBody.getD []))
      (hLast : exprUsesExit t (.ifElse thenBody elseBody span) = true → tail = [] ∧ elseBody.isSome)
      (hTail : Settled t tail) : Settled t (.ifElse thenBody elseBody span :: tail)
  | caseOf {arms : List (CaseArm Expr)} {tail : List Expr} {default : Option (List Expr)} {span : Span}
      (hArms : ∀ a ∈ arms, Settled t a.body) (hDefault : Settled t (default.getD []))
      (hLast : exprUsesExit t (.caseOf arms default span) = true →
        tail = [] ∧ givenDefault (default.getD []) = default)
      (hTail : Settled t tail) : Settled t (.caseOf arms default span :: tail)

/-- Settled code is lowered to itself. -/
theorem Settled.lowered {seq : List Expr} (h : Settled t seq) : (lowerSeq t seq).1 = seq := by
  induction h with
  | nil => rw [lowerSeq]
  | other hWord hIf hCase hTail ih => rw [lowerSeq_other hWord hIf hCase, ih]
  | @ifElse thenBody tail elseBody span hThen hElse hLast hTail ihThen ihElse ih =>
    cases hUses : exprUsesExit t (.ifElse thenBody elseBody span) with
    | false => rw [lowerSeq_cons_free hUses, ih]
    | true =>
      obtain ⟨rfl, hSome⟩ := hLast hUses
      obtain ⟨elseBody, rfl⟩ := Option.isSome_iff_exists.mp hSome
      rw [lowerSeq_ifElse_exit hUses, List.append_nil, List.append_nil, ihThen, ihElse]
      rfl
  | @caseOf arms tail default span hArms hDefault hLast hTail ihArms ihDefault ih =>
    cases hUses : exprUsesExit t (.caseOf arms default span) with
    | false => rw [lowerSeq_cons_free hUses, ih]
    | true =>
      obtain ⟨rfl, hGiven⟩ := hLast hUses
      have hArmsKept : arms.map (fun a =>
          (⟨a.matchExpr, (lowerSeq t (a.body ++ [])).1, a.span⟩ : CaseArm Expr)) = arms := by
        conv_rhs => rw [← List.map_id arms]
        apply List.map_congr_left
        intro a ha
        rw [List.append_nil, ihArms a ha]
        rfl
      rw [lowerSeq_caseOf_given hUses, List.append_nil, ihDefault, hGiven, lowerArms_fst, hArmsKept]

theorem arm_size_le {arms : List (CaseArm Expr)} {a : CaseArm Expr} (h : a ∈ arms) :
    seqSize a.body < armsSize arms := by
  induction arms with
  | nil => cases h
  | cons b arms ih =>
    obtain ⟨matchExpr, body, span⟩ := b
    rw [armsSize]
    rcases List.mem_cons.mp h with rfl | h
    · dsimp only
      omega
    · have hRest := ih h
      omega

/-- Whatever is lowered is settled. -/
theorem lowerSeq_settled (n : Nat) : ∀ seq : List Expr, seqSize seq ≤ n →
    Settled t (lowerSeq t seq).1 := by
  induction n with
  | zero =>
    intro seq hn
    cases seq with
    | nil =>
      rw [lowerSeq]
      exact .nil
    | cons e tail =>
      have hPos := Expr.size_pos e
      rw [seqSize] at hn
      omega
  | succ n ih =>
    intro seq hn
    cases seq with
    | nil =>
      rw [lowerSeq]
      exact .nil
    | cons e tail =>
      have hPos := Expr.size_pos e
      rw [seqSize] at hn
      have hTail := ih tail (by omega)
      have hFree : ∀ es, seqSize es ≤ n → bodyUsesExit t es = false → Settled t es := by
        intro es hes hNone
        have hLowered := ih es hes
        rwa [lowerSeq_free _ es hes hNone] at hLowered
      have hOther : ∀ e : Expr, isExitWord t e = false →
          (∀ thenBody elseBody span, e ≠ .ifElse thenBody elseBody span) →
          (∀ arms default span, e ≠ .caseOf arms default span) →
          Settled t (lowerSeq t (e :: tail)).1 := by
        intro e hWord hIf hCase
        rw [lowerSeq_other hWord hIf hCase]
        exact .other hWord hIf hCase hTail
      cases e with
      | ifElse thenBody elseBody span =>
        rw [Expr.size_ifElse] at hn
        cases hUses : exprUsesExit t (.ifElse thenBody elseBody span) with
        | false =>
          rw [lowerSeq_cons_free hUses]
          have hNone := hUses
          rw [exprUsesExit_ifElse, Bool.or_eq_false_iff] at hNone
          refine .ifElse (hFree _ (by omega) hNone.1) (hFree _ (by omega) hNone.2) ?_ hTail
          rw [hUses]
          exact fun h => by cases h
        | true =>
          rw [lowerSeq_ifElse_exit hUses]
          exact .ifElse (ih _ (by rw [seqSize_append]; omega)) (ih _ (by rw [seqSize_append]; omega))
            (fun _ => ⟨rfl, rfl⟩) .nil
      | caseOf arms default span =>
        rw [Expr.size_caseOf] at hn
        cases hUses : exprUsesExit t (.caseOf arms default span) with
        | false =>
          rw [lowerSeq_cons_free hUses]
          have hNone := hUses
          rw [exprUsesExit_caseOf, Bool.or_eq_false_iff] at hNone
          refine .caseOf (fun a ha => ?_) (hFree _ (by omega) hNone.2) ?_ hTail
          · have hSize := arm_size_le ha
            apply hFree _ (by omega)
            apply Bool.eq_false_iff.mpr
            intro hBody
            rw [armsUseExit_iff.mpr ⟨a, ha, hBody⟩] at hNone
            cases hNone.1
          · rw [hUses]
            exact fun h => by cases h
        | true =>
          rw [lowerSeq_caseOf_given hUses, lowerArms_fst]
          refine .caseOf (fun a ha => ?_) ?_ (fun _ => ⟨rfl, ?_⟩) .nil
          · obtain ⟨b, hb, rfl⟩ := List.mem_map.mp ha
            have hSize := arm_size_le hb
            exact ih _ (by rw [seqSize_append]; omega)
          · rw [givenDefault_getD]
            exact ih _ (by rw [seqSize_append]; omega)
          · rw [givenDefault_getD]
      | wordRef name span =>
        cases hWord : isExitWord t (.wordRef name span) with
        | true =>
          rw [lowerSeq_exit hWord]
          exact .nil
        | false =>
          exact hOther _ hWord (fun _ _ _ h => by cases h) fun _ _ _ h => by cases h
      | _ => exact hOther _ rfl (fun _ _ _ h => by cases h) fun _ _ _ h => by cases h

/-! The EXITs of settled code. -/

/-- What is found in code is found in it outside of parts, or by `look` in a part. -/
structure ReadsParts (t : Dict Span Target) (look : Part → Prop) (found : List Expr → Prop) : Prop where
  nil : ¬ found []
  other : ∀ e tail, (∀ thenBody elseBody span, e ≠ .ifElse thenBody elseBody span) →
    (∀ arms default span, e ≠ .caseOf arms default span) →
      (found (e :: tail) ↔
        (isExitWord t e = true ∨ ∃ p ∈ exprParts t e, look p) ∨ found tail)
  ifElse : ∀ thenBody elseBody span tail, found (.ifElse thenBody elseBody span :: tail) ↔
    (found thenBody ∨ found (elseBody.getD [])) ∨ found tail
  caseOf : ∀ arms default span tail, found (.caseOf arms default span :: tail) ↔
    ((∃ a ∈ arms, look (.matched a.matchExpr) ∨ found a.body) ∨ found (default.getD [])) ∨ found tail

theorem arms_found_iff {look : Part → Prop} {found : List Expr → Prop} {arms : List (CaseArm Expr)}
    (h : ∀ a ∈ arms, (found a.body ↔ ∃ p ∈ seqParts t a.body, look p)) :
    (∃ a ∈ arms, look (.matched a.matchExpr) ∨ found a.body) ↔ ∃ p ∈ armsParts t arms, look p := by
  constructor
  · rintro ⟨a, ha, hLook | hFound⟩
    · exact ⟨_, mem_armsParts.mpr ⟨a, ha, .inl rfl⟩, hLook⟩
    · obtain ⟨p, hp, hLook⟩ := (h a ha).mp hFound
      exact ⟨p, mem_armsParts.mpr ⟨a, ha, .inr hp⟩, hLook⟩
  · rintro ⟨p, hp, hLook⟩
    obtain ⟨a, ha, rfl | hBody⟩ := mem_armsParts.mp hp
    · exact ⟨a, ha, .inl hLook⟩
    · exact ⟨a, ha, .inr ((h a ha).mpr ⟨p, hBody, hLook⟩)⟩

theorem exprEnds_loop {e : Expr} (hWord : isExitWord t e = false)
    (hIf : ∀ thenBody elseBody span, e ≠ .ifElse thenBody elseBody span)
    (hCase : ∀ arms default span, e ≠ .caseOf arms default span) : exprEnds t e = false := by
  cases e with
  | wordRef name span =>
    rw [exprEnds]
    exact hWord
  | ifElse thenBody elseBody span => exact absurd rfl (hIf thenBody elseBody span)
  | caseOf arms default span => exact absurd rfl (hCase arms default span)
  | _ =>
    rw [exprEnds]
    all_goals exact nofun

/-- In settled code all of it is found in parts. -/
theorem Settled.found_iff {look : Part → Prop} {found : List Expr → Prop}
    (hReads : ReadsParts t look found) {seq : List Expr} (h : Settled t seq) :
    found seq ↔ ∃ p ∈ seqParts t seq, look p := by
  have hBehind : ∀ (e : Expr) (tail : List Expr), (exprEnds t e = true → tail = []) →
      (found tail ↔ ∃ p ∈ seqParts t tail, look p) → ∀ own : Prop,
      (own ↔ ∃ p ∈ exprParts t e, look p) →
        (own ∨ found tail ↔ ∃ p ∈ seqParts t (e :: tail), look p) := by
    intro e tail hEnds hTail own hOwn
    rw [hOwn, hTail, seqParts]
    cases hEnd : exprEnds t e with
    | true =>
      rw [hEnds hEnd]
      simp [seqParts]
    | false => simp [or_and_right, exists_or]
  induction h with
  | nil =>
    simp only [seqParts, List.not_mem_nil, false_and, exists_false, iff_false]
    exact hReads.nil
  | @other e tail hWord hIf hCase hTail ih =>
    rw [hReads.other e tail hIf hCase]
    apply hBehind e tail _ ih
    · simp [hWord]
    · intro hEnds
      rw [exprEnds_loop hWord hIf hCase] at hEnds
      cases hEnds
  | @ifElse thenBody tail elseBody span hThen hElse hLast hTail ihThen ihElse ih =>
    rw [hReads.ifElse]
    apply hBehind _ tail _ ih
    · refine (or_congr ihThen ihElse).trans ?_
      simp [mem_ifElse_parts, or_and_right, exists_or]
    · exact fun hEnds => (hLast (exprEnds_uses _ hEnds)).1
  | @caseOf arms tail default span hArms hDefault hLast hTail ihArms ihDefault ih =>
    rw [hReads.caseOf]
    apply hBehind _ tail _ ih
    · refine (or_congr (arms_found_iff ihArms) ihDefault).trans ?_
      simp [mem_caseOf_parts, or_and_right, exists_or]
    · exact fun hEnds => (hLast (exprEnds_uses _ hEnds)).1

theorem mem_outside_ifElse {thenBody : List Expr} {elseBody : Option (List Expr)} {span : Span}
    {x : Expr} : x ∈ exprOutside (.ifElse thenBody elseBody span) ↔
      x ∈ outside thenBody ∨ x ∈ outside (elseBody.getD []) := by
  cases elseBody <;> simp [exprOutside, outside]

theorem mem_armsOutside {arms : List (CaseArm Expr)} {x : Expr} : x ∈ armsOutside arms ↔
    ∃ a ∈ arms, x ∈ outside a.matchExpr ∨ x ∈ outside a.body := by
  induction arms with
  | nil => simp [armsOutside]
  | cons a arms ih =>
    obtain ⟨matchExpr, body, span⟩ := a
    simp [armsOutside, ih, or_assoc]

theorem mem_armsLeaves {arms : List (CaseArm Expr)} {x : Expr} : x ∈ armsLeaves arms ↔
    ∃ a ∈ arms, x ∈ leaves a.matchExpr ∨ x ∈ leaves a.body := by
  induction arms with
  | nil => simp [armsLeaves]
  | cons a arms ih =>
    obtain ⟨matchExpr, body, span⟩ := a
    simp [armsLeaves, ih, or_assoc]

theorem mem_outside_caseOf {arms : List (CaseArm Expr)} {default : Option (List Expr)} {span : Span}
    {x : Expr} : x ∈ exprOutside (.caseOf arms default span) ↔
      x ∈ armsOutside arms ∨ x ∈ outside (default.getD []) := by
  cases default <;> simp [exprOutside, outside]

/-- Something in the match expression or the body of some arm. -/
theorem exists_arms {arms : List (CaseArm Expr)} {matched body : CaseArm Expr → Expr → Prop}
    {own : Expr → Prop} : (∃ x, (∃ a ∈ arms, matched a x ∨ body a x) ∧ own x) ↔
      ∃ a ∈ arms, (∃ x, matched a x ∧ own x) ∨ ∃ x, body a x ∧ own x := by
  constructor
  · rintro ⟨x, ⟨a, ha, hx⟩, hOwn⟩
    exact ⟨a, ha, hx.imp (fun h => ⟨x, h, hOwn⟩) fun h => ⟨x, h, hOwn⟩⟩
  · rintro ⟨a, ha, ⟨x, hx, hOwn⟩ | ⟨x, hx, hOwn⟩⟩
    · exact ⟨x, ⟨a, ha, .inl hx⟩, hOwn⟩
    · exact ⟨x, ⟨a, ha, .inr hx⟩, hOwn⟩

/-- An EXIT outside of loops. -/
def ExitOutside (t : Dict Span Target) (es : List Expr) : Prop :=
  ∃ x ∈ outside es, isExitWord t x = true

/-- An EXIT anywhere. -/
def ExitAnywhere (t : Dict Span Target) (es : List Expr) : Prop :=
  ∃ x ∈ leaves es, isExitWord t x = true

def Part.exitOutside (t : Dict Span Target) : Part → Prop
  | .loop _ => False
  | .matched es => ExitOutside t es

def Part.exitAnywhere (t : Dict Span Target) (p : Part) : Prop :=
  ∃ x ∈ p.leaves, isExitWord t x = true

/-- The EXITs of a part that are looked for. -/
def Part.usesExit (t : Dict Span Target) : Part → Prop
  | .loop e => exprUsesExit t e = true
  | .matched _ => False

theorem exitOutside_reads : ReadsParts t (Part.exitOutside t) (ExitOutside t) where
  nil := by
    rintro ⟨x, hx, -⟩
    cases hx
  other e tail hIf hCase := by
    unfold ExitOutside
    rw [outside]
    simp only [List.mem_append, or_and_right, exists_or]
    apply or_congr_left
    cases e with
    | ifElse thenBody elseBody span => exact absurd rfl (hIf thenBody elseBody span)
    | caseOf arms default span => exact absurd rfl (hCase arms default span)
    | _ => simp [exprOutside, exprParts, Part.exitOutside, isExitWord]
  ifElse thenBody elseBody span tail := by
    unfold ExitOutside
    rw [outside]
    simp only [List.mem_append, mem_outside_ifElse, or_and_right, exists_or]
  caseOf arms default span tail := by
    unfold ExitOutside
    rw [outside]
    simp only [List.mem_append, mem_outside_caseOf, mem_armsOutside, or_and_right, exists_or]
    exact or_congr_left (or_congr_left exists_arms)

theorem exitAnywhere_reads : ReadsParts t (Part.exitAnywhere t) (ExitAnywhere t) where
  nil := by
    rintro ⟨x, hx, -⟩
    cases hx
  other e tail hIf hCase := by
    unfold ExitAnywhere
    rw [leaves]
    simp only [List.mem_append, or_and_right, exists_or]
    apply or_congr_left
    cases e with
    | ifElse thenBody elseBody span => exact absurd rfl (hIf thenBody elseBody span)
    | caseOf arms default span => exact absurd rfl (hCase arms default span)
    | _ => simp [exprLeaves, exprParts, Part.exitAnywhere, Part.leaves, isExitWord]
  ifElse thenBody elseBody span tail := by
    unfold ExitAnywhere
    rw [leaves]
    simp only [List.mem_append, mem_ifElse_leaves, or_and_right, exists_or]
  caseOf arms default span tail := by
    unfold ExitAnywhere
    rw [leaves]
    simp only [List.mem_append, mem_caseOf_leaves, mem_armsLeaves, or_and_right, exists_or]
    exact or_congr_left (or_congr_left exists_arms)

theorem usesExit_reads : ReadsParts t (Part.usesExit t) (bodyUsesExit t · = true) where
  nil := by simp [bodyUsesExit]
  other e tail hIf hCase := by
    rw [bodyUsesExit, Bool.or_eq_true]
    apply or_congr_left
    cases e with
    | ifElse thenBody elseBody span => exact absurd rfl (hIf thenBody elseBody span)
    | caseOf arms default span => exact absurd rfl (hCase arms default span)
    | _ => simp [exprUsesExit, exprParts, Part.usesExit, isExitWord]
  ifElse thenBody elseBody span tail := by
    rw [bodyUsesExit, exprUsesExit_ifElse, Bool.or_eq_true, Bool.or_eq_true]
  caseOf arms default span tail := by
    rw [bodyUsesExit, exprUsesExit_caseOf, Bool.or_eq_true, Bool.or_eq_true, armsUseExit_iff]
    simp [Part.usesExit]

/-! The parts of a body are those of what it is lowered to. -/

theorem mem_parts_cons {e : Expr} {tail : List Expr} {p : Part} : p ∈ seqParts t (e :: tail) ↔
    p ∈ exprParts t e ∨ exprEnds t e = false ∧ p ∈ seqParts t tail := by
  rw [seqParts]
  cases exprEnds t e <;> simp

theorem mem_parts_one {e : Expr} {p : Part} : p ∈ seqParts t [e] ↔ p ∈ exprParts t e := by
  rw [mem_parts_cons]
  simp [seqParts]

/-- Code behind a branching is reached where one of the branches does not leave. -/
theorem branches_or {a b c d e : Prop} : (a ∨ b ∧ e) ∨ (c ∨ d ∧ e) ↔ (a ∨ c) ∨ (b ∨ d) ∧ e := by
  tauto

theorem mem_parts_lowerArms {tail : List Expr} {p : Part} {arms : List (CaseArm Expr)}
    (h : ∀ a ∈ arms, (p ∈ seqParts t (lowerSeq t (a.body ++ tail)).1 ↔
      p ∈ seqParts t a.body ∨ seqEnds t a.body = false ∧ p ∈ seqParts t tail)) :
    p ∈ armsParts t (lowerArms t arms tail).1 ↔
      p ∈ armsParts t arms ∨ armsEnd t arms = false ∧ p ∈ seqParts t tail := by
  rw [lowerArms_fst]
  induction arms with
  | nil => simp [armsParts, armsEnd]
  | cons a arms ih =>
    have hRest := ih fun b hb => h b (List.mem_cons_of_mem _ hb)
    have hHead := h a List.mem_cons_self
    obtain ⟨matchExpr, body, span⟩ := a
    rw [List.map_cons, armsParts, armsParts, armsEnd, List.mem_append, List.mem_append,
      List.mem_cons, List.mem_cons, hRest, hHead, Bool.and_eq_false_iff, ← @or_assoc (p = _)]
    exact branches_or

theorem mem_parts_lowered (n : Nat) : ∀ seq : List Expr, seqSize seq ≤ n → ∀ p : Part,
    p ∈ seqParts t (lowerSeq t seq).1 ↔ p ∈ seqParts t seq := by
  induction n with
  | zero =>
    intro seq hn p
    cases seq with
    | nil => rw [lowerSeq]
    | cons e tail =>
      have hPos := Expr.size_pos e
      rw [seqSize] at hn
      omega
  | succ n ih =>
    intro seq hn p
    cases seq with
    | nil => rw [lowerSeq]
    | cons e tail =>
      have hPos := Expr.size_pos e
      rw [seqSize] at hn
      have hKeep : (lowerSeq t (e :: tail)).1 = e :: (lowerSeq t tail).1 →
          (p ∈ seqParts t (lowerSeq t (e :: tail)).1 ↔ p ∈ seqParts t (e :: tail)) := by
        intro hEq
        rw [hEq, mem_parts_cons, mem_parts_cons, ih tail (by omega)]
      -- code in front of the tail is lowered together with it
      have hFront : ∀ es, seqSize es < e.size →
          (p ∈ seqParts t (lowerSeq t (es ++ tail)).1 ↔
            p ∈ seqParts t es ∨ seqEnds t es = false ∧ p ∈ seqParts t tail) := by
        intro es hes
        rw [ih _ (by rw [seqSize_append]; omega), mem_parts_append]
      cases hUses : exprUsesExit t e with
      | false => exact hKeep (lowerSeq_cons_free hUses tail)
      | true =>
        cases e with
        | ifElse thenBody elseBody span =>
          rw [Expr.size_ifElse] at hFront
          rw [lowerSeq_ifElse_exit hUses, mem_parts_one, mem_ifElse_parts, mem_parts_cons,
            mem_ifElse_parts, exprEnds_ifElse, Option.getD, hFront _ (by omega), hFront _ (by omega),
            Bool.and_eq_false_iff]
          exact branches_or
        | caseOf arms default span =>
          rw [Expr.size_caseOf] at hFront
          have hArms : p ∈ armsParts t (lowerArms t arms tail).1 ↔ p ∈ armsParts t arms ∨
              armsEnd t arms = false ∧ p ∈ seqParts t tail := by
            refine mem_parts_lowerArms fun a ha => hFront _ ?_
            have hSize := arm_size_le ha
            omega
          rw [lowerSeq_caseOf_given hUses, mem_parts_one, mem_caseOf_parts, mem_parts_cons,
            mem_caseOf_parts, exprEnds_caseOf, givenDefault_getD, hFront _ (by omega), hArms,
            Bool.and_eq_false_iff]
          exact branches_or
        | wordRef name span =>
          rw [exprUsesExit] at hUses
          have hEnds : exprEnds t (.wordRef name span) = true := by
            rw [exprEnds]
            exact hUses
          rw [lowerSeq_exit hUses, mem_parts_cons, hEnds]
          simp [seqParts, exprParts]
        | _ => exact hKeep (lowerSeq_other rfl (fun _ _ _ => by simp) (fun _ _ _ => by simp) tail)

/-- What the pass should leave: EXITs inside loops only, seen by `bodyUsesExit`, and code that a second
pass leaves as it is. -/
structure Clean (t : Dict Span Target) (body : List Expr) : Prop where
  inLoops : ¬ ExitOutside t (lowerBody body t)
  seen : ExitAnywhere t (lowerBody body t) → bodyUsesExit t (lowerBody body t) = true
  again : lowerBody (lowerBody body t) t = lowerBody body t

/-- No EXIT of a match expression stands outside of loops, and where one stands in some part, one that
is looked for stands in some loop. -/
structure PartsClean (t : Dict Span Target) (parts : List Part) : Prop where
  inLoops : ∀ p ∈ parts, ¬ p.exitOutside t
  seen : (∃ p ∈ parts, p.exitAnywhere t) → ∃ p ∈ parts, p.usesExit t

/-- A second pass never changes anything; the EXITs left are in loops and seen exactly when those of the
parts that the pass copies are. -/
theorem lowerBody_clean (t : Dict Span Target) (body : List Expr) :
    Clean t body ↔ PartsClean t (seqParts t body) := by
  have hSettled : Settled t (lowerBody body t) := lowerSeq_settled _ body (Nat.le_refl _)
  have hParts : ∀ look : Part → Prop, (∃ p ∈ seqParts t (lowerBody body t), look p) ↔
      ∃ p ∈ seqParts t body, look p := by
    intro look
    exact exists_congr fun p => and_congr_left fun _ => mem_parts_lowered _ body (Nat.le_refl _) p
  have hOutside := (hSettled.found_iff exitOutside_reads).trans (hParts _)
  have hAnywhere := (hSettled.found_iff exitAnywhere_reads).trans (hParts _)
  have hUses := (hSettled.found_iff usesExit_reads).trans (hParts _)
  constructor
  · rintro ⟨hIn, hSeen, -⟩
    rw [hOutside] at hIn
    rw [hAnywhere, hUses] at hSeen
    exact ⟨fun p hp hExit => hIn ⟨p, hp, hExit⟩, hSeen⟩
  · rintro ⟨hIn, hSeen⟩
    refine ⟨?_, ?_, hSettled.lowered⟩
    · rw [hOutside]
      rintro ⟨p, hp, hExit⟩
      exact hIn p hp hExit
    · rw [hAnywhere, hUses]
      exact hSeen

end

/-- The EXIT in front of an OF is kept, and nothing sees it. -/
theorem lowerBody_not_clean :
    ¬ ∀ (source : String) (m : Sema),
      (analyse noLet noFiles source .new synthCounterStart).result = .ok m →
      ∀ d ∈ definitions (preparedProgram noLet noFiles source .new synthCounterStart).items,
        Clean m.wordTargets d.body := by
  intro hAll
  let source := ": f ( n -- n ) dup case exit of 1 endof endcase ;"
  let defs := definitions (preparedProgram noLet noFiles source .new synthCounterStart).items
  have hExits : (analyse noLet noFiles source .new synthCounterStart).result.toOption.map (fun m =>
      defs.map fun d => ((leaves (lowerBody d.body m.wordTargets)).any (isExitWord m.wordTargets),
        bodyUsesExit m.wordTargets (lowerBody d.body m.wordTargets))) = some [(true, false)] := by
    decide +kernel
  cases h : (analyse noLet noFiles source .new synthCounterStart).result with
  | error e =>
    rw [h] at hExits
    cases hExits
  | ok m =>
    rw [h] at hExits
    obtain ⟨d, hDefs, hPair⟩ := List.map_eq_singleton_iff.mp (Option.some.inj hExits)
    obtain ⟨hAnywhere, hNone⟩ := Prod.mk.inj hPair
    have hClean := hAll source m h d (by
      show d ∈ defs
      rw [hDefs]
      exact List.mem_singleton.mpr rfl)
    have hSeen := hClean.seen (List.any_eq_true.mp hAnywhere)
    rw [hNone] at hSeen
    cases hSeen

end FactorForth.Correctness
