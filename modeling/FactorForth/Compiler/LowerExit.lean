import FactorForth.Compiler.Resolve
import Mathlib.Tactic.Common

/-! The EXIT pass: the code that follows an IF or a CASE is copied into those of its branches that
mention EXIT, so that EXIT can be dropped together with whatever stands behind it. -/

namespace FactorForth.Compiler
open FactorForth.Library

def isExitWord (r : Dict Span Target) : Expr → Bool
  | .wordRef _ span => r.lookup span == some Target.exit
  | _ => false

mutual
def exprUsesExit (r : Dict Span Target) : Expr → Bool
  | .wordRef name span => isExitWord r (.wordRef name span)
  | .ifElse thenBody none _ => bodyUsesExit r thenBody
  | .ifElse thenBody (some elseBody) _ => bodyUsesExit r thenBody || bodyUsesExit r elseBody
  | .beginUntil body _ => bodyUsesExit r body
  | .beginAgain body _ => bodyUsesExit r body
  | .beginWhileRepeat pred body _ => bodyUsesExit r pred || bodyUsesExit r body
  | .doLoop _ body _ _ => bodyUsesExit r body
  | .caseOf arms none _ => armsUseExit r arms
  | .caseOf arms (some default) _ => armsUseExit r arms || bodyUsesExit r default
  | _ => false

/-- The match expressions of the arms are not looked into. -/
def armsUseExit (r : Dict Span Target) : List (CaseArm Expr) → Bool
  | [] => false
  | ⟨_, body, _⟩ :: arms => bodyUsesExit r body || armsUseExit r arms

def bodyUsesExit (r : Dict Span Target) : List Expr → Bool
  | [] => false
  | e :: es => exprUsesExit r e || bodyUsesExit r es
end

/-! The pass recurses on a branch with the following code appended, which is smaller than the whole
by the node it came from. -/

mutual
def Expr.size : Expr → Nat
  | .ifElse thenBody none _ => 1 + seqSize thenBody
  | .ifElse thenBody (some elseBody) _ => 1 + seqSize thenBody + seqSize elseBody
  | .beginUntil body _ => 1 + seqSize body
  | .beginAgain body _ => 1 + seqSize body
  | .beginWhileRepeat pred body _ => 1 + seqSize pred + seqSize body
  | .doLoop _ body _ _ => 1 + seqSize body
  | .caseOf arms none _ => 1 + armsSize arms
  | .caseOf arms (some default) _ => 1 + armsSize arms + seqSize default
  | _ => 1

def armsSize : List (CaseArm Expr) → Nat
  | [] => 0
  | ⟨matchExpr, body, _⟩ :: arms => 1 + seqSize matchExpr + seqSize body + armsSize arms

def seqSize : List Expr → Nat
  | [] => 0
  | e :: es => e.size + seqSize es
end

theorem seqSize_append (xs ys : List Expr) : seqSize (xs ++ ys) = seqSize xs + seqSize ys := by
  induction xs with
  | nil => simp only [List.nil_append, seqSize, Nat.zero_add]
  | cons x xs ih => simp only [List.cons_append, seqSize, ih, Nat.add_assoc]

theorem Expr.size_pos (e : Expr) : 0 < e.size := by
  cases e with
  | ifElse t o sp => cases o <;> simp only [Expr.size] <;> omega
  | caseOf arms o sp => cases o <;> simp only [Expr.size] <;> omega
  | _ =>
    simp only [Expr.size]
    omega

theorem Expr.size_ifElse (t : List Expr) (o : Option (List Expr)) (sp : Span) :
    (Expr.ifElse t o sp).size = 1 + seqSize t + seqSize (o.getD []) := by
  cases o <;> simp only [Expr.size, Option.getD, seqSize, Nat.add_zero]

theorem Expr.size_caseOf (arms : List (CaseArm Expr)) (o : Option (List Expr)) (sp : Span) :
    (Expr.caseOf arms o sp).size = 1 + armsSize arms + seqSize (o.getD []) := by
  cases o <;> simp only [Expr.size, Option.getD, seqSize, Nat.add_zero]

mutual
/-- The rewritten sequence, and whether every path through it leaves by EXIT. -/
def lowerSeq (r : Dict Span Target) : List Expr → List Expr × Bool
  | [] => ([], false)
  | e :: tail =>
    if isExitWord r e then ([], true)
    else match e with
      | .ifElse thenBody elseBody span =>
        if bodyUsesExit r thenBody || bodyUsesExit r (elseBody.getD []) then
          let (thenL, thenTerm) := lowerSeq r (thenBody ++ tail)
          let (elseL, elseTerm) := lowerSeq r (elseBody.getD [] ++ tail)
          ([.ifElse thenL (some elseL) span], thenTerm && elseTerm)
        else
          let thenL := (lowerSeq r thenBody).1
          let elseL := if elseBody.isSome then some (lowerSeq r (elseBody.getD [])).1 else none
          let (out, term) := lowerSeq r tail
          (.ifElse thenL elseL span :: out, term)
      | .caseOf arms default span =>
        if armsUseExit r arms || bodyUsesExit r (default.getD []) then
          let (armsL, armsTerm) := lowerArms r arms tail
          -- with no default and nothing behind the CASE the no-match path runs no code
          let (defaultL, defaultTerm) := lowerSeq r (default.getD [] ++ tail)
          ([.caseOf armsL (if defaultL.isEmpty then none else some defaultL) span],
            armsTerm && defaultTerm)
        else
          let armsL := (lowerArms r arms []).1
          let defaultL := if default.isSome then some (lowerSeq r (default.getD [])).1 else none
          let (out, term) := lowerSeq r tail
          (.caseOf armsL defaultL span :: out, term)
      | e =>
        let (out, term) := lowerSeq r tail
        (e :: out, term)
termination_by seq => seqSize seq
decreasing_by all_goals
  (have hpos := Expr.size_pos e
   simp only [seqSize, seqSize_append, Expr.size_ifElse, Expr.size_caseOf] at *
   omega)

/-- The arms with `tail` behind each body, and whether all of them leave by EXIT. -/
def lowerArms (r : Dict Span Target) : List (CaseArm Expr) → List Expr → List (CaseArm Expr) × Bool
  | [], _ => ([], true)
  | ⟨matchExpr, body, span⟩ :: arms, tail =>
    let (bodyL, bodyTerm) := lowerSeq r (body ++ tail)
    let (armsL, armsTerm) := lowerArms r arms tail
    (⟨matchExpr, bodyL, span⟩ :: armsL, bodyTerm && armsTerm)
termination_by arms tail => armsSize arms + seqSize tail
decreasing_by all_goals (simp only [armsSize, seqSize_append]; omega)
end

def lowerBody (body : List Expr) (wordTargets : Dict Span Target) : List Expr :=
  (lowerSeq wordTargets body).1

end FactorForth.Compiler
