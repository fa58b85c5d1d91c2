import FactorForth.Compiler.LowerExit

/-! Stack-effect inference: the effect table of the builtins, the composition of effects, the rules
for the control structures, and the pass over a whole program. -/

namespace FactorForth.Compiler
open FactorForth.Library

/-- A net effect, or no claim at all. -/
inductive Effect where
  | known (inputs outputs : Nat)
  | unknown
deriving DecidableEq, Repr

/-- `next` either consumes from the outputs of the first effect or reaches below them. -/
def Effect.andThen : Effect → Effect → Effect
  | .known ai ao, .known bi bo =>
    if bi ≤ ao then .known ai (ao - bi + bo) else .known (ai + (bi - ao)) bo
  | _, _ => .unknown

theorem Effect.andThen_known (ai ao bi bo : Nat) :
    (Effect.known ai ao).andThen (.known bi bo) = .known (ai + (bi - ao)) (ao - bi + bo) := by
  simp only [Effect.andThen]
  split
  · simp only [Effect.known.injEq, and_true]
    omega
  · simp only [Effect.known.injEq, true_and]
    omega

theorem Effect.andThen_unknown (a : Effect) : a.andThen .unknown = .unknown := by
  cases a <;> rfl

theorem Effect.andThen_assoc (a b c : Effect) :
    (a.andThen b).andThen c = a.andThen (b.andThen c) := by
  cases a with
  | unknown => rfl
  | known ai ao =>
    cases b with
    | unknown => rfl
    | known bi bo =>
      cases c with
      | unknown => rw [andThen_unknown, andThen_unknown, andThen_unknown]
      | known ci co =>
        simp only [Effect.andThen_known, Effect.known.injEq]
        omega

inductive EffectError where
  | mismatch (name : String) (at_ : Span) (declared inferred : Nat × Nat)
  | caseNeedsDefault (name : String) (at_ : Span)
deriving DecidableEq, Repr

def EffectError.display : EffectError → String
  | .mismatch name at_ declared inferred =>
    "warning: `" ++ name ++ "` at " ++ at_.display ++ ": declared ( -- " ++
      toString declared.2 ++ " item" ++ (if declared.2 = 1 then "" else "s ") ++
      ") but body produces ( -- " ++ toString inferred.2 ++ " item" ++
      (if inferred.2 = 1 then "" else "s ") ++ ")" ++
      if declared.1 ≠ inferred.1 then
        "; also consumes " ++ toString inferred.1 ++ " (declared " ++ toString declared.1 ++ ")"
      else ""
  | .caseNeedsDefault name at_ =>
    "warning: `" ++ name ++ "` at " ++ at_.display ++
      ": CASE has no explicit DEFAULT/OTHER branch, and the no-match path leaves a different " ++
      "stack shape than its OF arms"

open Effect in
def builtinEffects : Dict String Effect := [
  ("dup", known 1 2), ("drop", known 1 0), ("swap", known 2 2), ("over", known 2 3),
  ("rot", known 3 3), ("nip", known 2 1), ("tuck", known 2 3), ("+", known 2 1),
  ("-", known 2 1), ("*", known 2 1), ("/", known 2 1), ("mod", known 2 1),
  ("negate", known 1 1), ("abs", known 1 1), ("min", known 2 1), ("max", known 2 1),
  ("=", known 2 1), ("<>", known 2 1), ("<", known 2 1), (">", known 2 1), ("<=", known 2 1),
  (">=", known 2 1), ("0=", known 1 1), ("0<", known 1 1), ("0>", known 1 1), ("and", known 2 1),
  ("or", known 2 1), ("xor", known 2 1), ("invert", known 1 1), ("i", known 0 1),
  ("j", known 0 1), ("leave", known 0 0), ("unloop", known 0 0), (".", known 1 0),
  ("cr", known 0 0), ("emit", known 1 0), ("space", known 0 0), ("spaces", known 1 0),
  ("type", known 2 0), ("cmove", known 3 0), ("fill", known 3 0), ("bl", known 0 1),
  ("key", known 0 1), ("accept", known 2 1), ("<#", known 0 0), ("#", known 1 1),
  ("#s", known 1 1), ("sign", known 1 0), ("hold", known 1 0), ("#>", known 1 2),
  ("n>$", known 1 2), ("hex", known 0 0), ("decimal", known 0 0), ("binary", known 0 0),
  ("octal", known 0 0), ("@", known 1 1), ("!", known 2 0), ("c@", known 1 1), ("c!", known 2 0),
  ("+!", known 2 0), ("cell+", known 1 1), ("char+", known 1 1), ("cells", known 1 1),
  ("chars", known 1 1), ("floats", known 1 1), ("allot", known 1 0), ("here", known 0 1),
  ("f@", known 1 1), ("f!", known 2 0), ("depth", known 0 1), (">r", known 1 0),
  ("r>", known 0 1), ("r@", known 0 1), ("rdrop", known 0 0), ("2>r", known 2 0),
  ("2r>", known 0 2), ("u.", known 1 0), ("s>d", known 1 1), ("d>s", known 1 1),
  ("d>f", known 1 1), ("f>d", known 1 1), ("f+", known 2 1), ("f-", known 2 1),
  ("f*", known 2 1), ("f/", known 2 1), ("f<", known 2 1), ("f>", known 2 1), ("f=", known 2 1),
  ("execute", known 1 0), ("1+", known 1 1), ("1-", known 1 1), ("2*", known 1 1),
  ("2/", known 1 1), ("/mod", known 2 2), ("*/", known 3 1), ("*/mod", known 3 2),
  ("lshift", known 2 1), ("rshift", known 2 1), ("2dup", known 2 4), ("2drop", known 2 0),
  ("2swap", known 4 4), ("2over", known 4 6), ("-rot", known 3 3), ("2@", known 1 2),
  ("2!", known 3 0), ("erase", known 2 0), ("0<>", known 1 1), ("$len", known 1 1),
  ("$clen", known 1 1), ("$+", known 2 1), ("$upper", known 1 1), ("$lower", known 1 1),
  ("$find", known 2 1), ("$contains?", known 2 1), ("$starts?", known 2 1),
  ("$ends?", known 2 1), ("$slice", known 3 1), ("$cmp", known 2 1), ("$hash", known 1 1),
  ("$.", known 1 0), ("$.cr", known 1 0), ("int>$", known 1 1), ("$>int", known 1 1),
  (">$", known 2 1), ("$>addr", known 1 2), ("included", known 2 0), ("typeof", known 1 1),
  ("int?", known 1 1), ("float?", known 1 1), ("string?", known 1 1), ("xt?", known 1 1),
  ("addr?", known 1 1), ("int-type", known 0 1), ("float-type", known 0 1),
  ("string-type", known 0 1), ("xt-type", known 0 1), ("addr-type", known 0 1),
  ("other-type", known 0 1), (".s", known 0 0), ("words", known 0 0), ("dump", known 1 1),
  ("<cells>", known 1 1), ("cells@", known 2 1), ("cells!", known 3 0), ("<rawvec>", known 0 1),
  ("rawvec-push", known 2 0), ("rawvec-len", known 1 1), ("rawvec-at", known 2 1),
  ("rawvec-set", known 3 0), ("call1", known 2 0), ("call1>", known 2 1), ("call2>", known 3 1),
  ("call2", known 3 0), ("(clone)", known 1 1), ("<hash>", known 0 1), ("hash-at", known 2 2),
  ("hash!", known 3 0), ("hash-key?", known 2 1), ("hash-del", known 2 0),
  ("hash-len", known 1 1), ("hash-keys", known 1 1), ("hash-vals", known 1 1),
  ("<hashset>", known 0 1), ("hs-add", known 2 0), ("hs-in?", known 2 1), ("hs-del", known 2 0),
  ("hs-len", known 1 1), ("hs-members", known 1 1), ("num>chars", known 1 1),
  ("chars>num", known 1 2), ("capture1", known 2 1), ("slurp-vec", known 1 1),
  ("spit-vec", known 2 0), ("file-exists-vec?", known 1 1), ("doc-open", known 2 1),
  ("doc-set", known 3 0), ("doc-append", known 3 0)]

/-- What the effect of a reference is looked up in. -/
structure EffectEnv where
  userEffects : Dict String Effect
  wordTargets : Dict Span Target

def EffectEnv.builtin (lc : String) : Effect := (builtinEffects.lookup lc).getD .unknown

def EffectEnv.wordEffect (env : EffectEnv) (name : String) (span : Span) : Effect :=
  let lc := lower name
  match env.wordTargets.lookup span with
  | some (.local_ _) => .known 0 1
  | some (.userDefined _) => (env.userEffects.lookup lc).getD .unknown
  | _ => EffectEnv.builtin lc

def joinBranchEffects : Effect → Effect → Option (Nat × Nat)
  | .known ti tOut, .known ei eOut => if ti = ei ∧ tOut = eOut then some (ti, tOut) else none
  | _, _ => none

def ifElseEffect (thenEff elseEff : Effect) : Effect :=
  match joinBranchEffects thenEff elseEff with
  | some (inputs, outputs) => .known inputs outputs
  | none => .unknown

theorem ifElseEffect_same (i o : Nat) :
    ifElseEffect (.known i o) (.known i o) = .known i o := by
  simp only [ifElseEffect, joinBranchEffects, and_self, if_true]

theorem ifElseEffect_ne {a b : Effect} (h : a ≠ b) : ifElseEffect a b = .unknown := by
  cases a with
  | unknown => rfl
  | known ti to' =>
    cases b with
    | unknown => rfl
    | known ei eo =>
      have hne : ¬ (ti = ei ∧ to' = eo) := fun hp => h (by rw [hp.1, hp.2])
      simp only [ifElseEffect, joinBranchEffects, hne, if_false]

def stringEffect : StringKind → Effect
  | .dotQuote => .known 0 0
  | .sQuote => .known 0 2
  | .cQuote => .known 0 1
  | .sDollarQuote => .known 0 1

def literalEffect : Literal → Effect
  | .int _ _ => .known 0 1
  | .float _ _ => .known 0 1
  | .str _ kind _ => stringEffect kind

def untilEffect : Effect → Effect
  | .known inputs outputs =>
    if 1 ≤ outputs ∧ outputs = inputs + 1 then .known inputs inputs
    else if inputs < outputs then .known inputs (outputs - 1)
    else .unknown
  | .unknown => .unknown

def whileEffect : Effect → Effect → Effect
  | .known pi po, .known bi bo =>
    if po = pi + 1 ∧ bi = bo then .known (max pi bi) (max pi bi) else .unknown
  | _, _ => .unknown

/-- DO takes limit and start. The rule is the same for LOOP and +LOOP. -/
def doEffect : Effect → Effect
  | .known inputs outputs => if inputs = outputs then .known (2 + inputs) inputs else .unknown
  | .unknown => .unknown

def ifNoElseEffect : Effect → Effect
  | .known inputs outputs =>
    if inputs = outputs then Effect.andThen (.known 1 0) (.known inputs outputs) else .unknown
  | .unknown => .unknown

/-- The effect of one arm given the effects of its parts and of the arms behind it. -/
def caseArmEffect (matchEff bodyEff elseEff : Effect) : Effect :=
  let condEff := ((Effect.known 1 2).andThen matchEff).andThen (.known 2 1)
  let thenEff := (Effect.known 1 0).andThen bodyEff
  (condEff.andThen (.known 1 0)).andThen (ifElseEffect thenEff elseEff)

mutual
def effectOfExpr (env : EffectEnv) : Expr → Effect
  | .lit l => literalEffect l
  | .wordRef name span => env.wordEffect name span
  | .ifElse thenBody none _ => ifNoElseEffect (inferSeq env (.known 0 0) thenBody)
  | .ifElse thenBody (some elseBody) _ =>
    Effect.andThen (.known 1 0)
      (ifElseEffect (inferSeq env (.known 0 0) thenBody) (inferSeq env (.known 0 0) elseBody))
  | .beginUntil body _ => untilEffect (inferSeq env (.known 0 0) body)
  | .beginWhileRepeat pred body _ =>
    whileEffect (inferSeq env (.known 0 0) pred) (inferSeq env (.known 0 0) body)
  | .beginAgain _ _ => .unknown
  | .doLoop _ body _ _ => doEffect (inferSeq env (.known 0 0) body)
  | .caseOf arms none _ => inferArms env ((Effect.known 0 0).andThen (.known 1 0)) arms
  | .caseOf arms (some default) _ =>
    inferArms env ((inferSeq env (.known 0 0) default).andThen (.known 1 0)) arms
  | .tick _ _ => .known 0 1
  | .toValue _ _ => .known 1 0
  | .letForm form _ => .known form.inputs.length form.outputs.length
  | .see _ _ => .known 0 0
  | .locals names _ => .known names.length 0

/-- The arms from the first on, over the effect of the no-match path. -/
def inferArms (env : EffectEnv) (base : Effect) : List (CaseArm Expr) → Effect
  | [] => base
  | ⟨matchExpr, body, _⟩ :: arms =>
    caseArmEffect (inferSeq env (.known 0 0) matchExpr) (inferSeq env (.known 0 0) body)
      (inferArms env base arms)

/-- The accumulator of the walk over a block; it stops at the first unknown effect. -/
def inferSeq (env : EffectEnv) (acc : Effect) : List Expr → Effect
  | [] => acc
  | e :: es =>
    match acc.andThen (effectOfExpr env e) with
    | .unknown => .unknown
    | acc => inferSeq env acc es
end

theorem inferSeq_unknown (env : EffectEnv) (es : List Expr) :
    inferSeq env .unknown es = .unknown := by
  cases es <;> rfl

theorem inferSeq_cons (env : EffectEnv) (acc : Effect) (e : Expr) (es : List Expr) :
    inferSeq env acc (e :: es) = inferSeq env (acc.andThen (effectOfExpr env e)) es := by
  rw [inferSeq]
  cases acc.andThen (effectOfExpr env e) with
  | unknown => exact (inferSeq_unknown env es).symm
  | known i o => rfl

theorem Effect.andThen_zero (a : Effect) : a.andThen (.known 0 0) = a := by
  cases a with
  | unknown => rfl
  | known i o => simp only [Effect.andThen_known, Nat.zero_sub, Nat.sub_zero, Nat.add_zero]

theorem Effect.zero_andThen (a : Effect) : (Effect.known 0 0).andThen a = a := by
  cases a with
  | unknown => rfl
  | known i o => simp only [Effect.andThen_known, Nat.zero_sub, Nat.sub_zero, Nat.zero_add]

/-- The accumulator is what goes before. -/
theorem inferSeq_eq (env : EffectEnv) (acc : Effect) (es : List Expr) :
    inferSeq env acc es = acc.andThen (inferSeq env (.known 0 0) es) := by
  induction es generalizing acc with
  | nil => exact (Effect.andThen_zero acc).symm
  | cons e es ih =>
    rw [inferSeq_cons, inferSeq_cons, ih, ih ((Effect.known 0 0).andThen _),
      Effect.zero_andThen, Effect.andThen_assoc]

/-- A block is its first expression and then the rest. -/
theorem inferSeq_zero_cons (env : EffectEnv) (e : Expr) (es : List Expr) :
    inferSeq env (.known 0 0) (e :: es) =
      (effectOfExpr env e).andThen (inferSeq env (.known 0 0) es) := by
  rw [inferSeq_cons, Effect.zero_andThen, inferSeq_eq]

def inferBlock (env : EffectEnv) (exprs : List Expr) : Effect := inferSeq env (.known 0 0) exprs

def caseNeedsDefaultWarning (env : EffectEnv) (arms : List (CaseArm Expr)) : Bool :=
  arms.any fun arm =>
    let armEff := (Effect.known 1 0).andThen (inferBlock env arm.body)
    armEff != .unknown && (joinBranchEffects armEff (.known 1 0)).isNone

mutual
def exprCaseWarnings (env : EffectEnv) (name : String) : Expr → List EffectError
  | .ifElse thenBody none _ => collectCaseWarnings env name thenBody
  | .ifElse thenBody (some elseBody) _ =>
    collectCaseWarnings env name thenBody ++ collectCaseWarnings env name elseBody
  | .beginUntil body _ => collectCaseWarnings env name body
  | .beginAgain body _ => collectCaseWarnings env name body
  | .doLoop _ body _ _ => collectCaseWarnings env name body
  | .beginWhileRepeat pred body _ =>
    collectCaseWarnings env name pred ++ collectCaseWarnings env name body
  | .caseOf arms none span =>
    (if caseNeedsDefaultWarning env arms then [.caseNeedsDefault name span] else []) ++
      armsCaseWarnings env name arms
  | .caseOf arms (some default) _ =>
    armsCaseWarnings env name arms ++ collectCaseWarnings env name default
  | _ => []

def armsCaseWarnings (env : EffectEnv) (name : String) : List (CaseArm Expr) → List EffectError
  | [] => []
  | ⟨matchExpr, body, _⟩ :: arms =>
    collectCaseWarnings env name matchExpr ++ collectCaseWarnings env name body ++
      armsCaseWarnings env name arms

def collectCaseWarnings (env : EffectEnv) (name : String) : List Expr → List EffectError
  | [] => []
  | e :: es => exprCaseWarnings env name e ++ collectCaseWarnings env name es
end

def checkDefinition (d : Definition) (bodyEff : Effect) : List EffectError :=
  match d.effect, bodyEff with
  | some se, .known bi bo =>
    let declared := (se.inputs.length, se.outputs.length)
    let inferred := if d.locals.isEmpty then (bi, bo) else (declared.1, bo)
    if declared ≠ inferred then [.mismatch d.name d.nameSpan declared inferred] else []
  | _, _ => []

def StackEffect.counts (se : StackEffect) : Effect := .known se.inputs.length se.outputs.length

def declaredEffect : Option StackEffect → Effect
  | some se => se.counts
  | none => .unknown

/-- The effect an item declares for its name before any body is looked at. -/
def Item.seedEffect : Item → Option (String × Effect)
  | .definition d => some (lower d.name, declaredEffect d.effect)
  | .variable v => some (lower v.name, .known 0 1)
  | .constant c => some (lower c.name, .known 0 1)
  | .create c => some (lower c.name, .known 0 1)
  | .collection c => some (lower c.name, .known 1 1)
  | .template t => some (lower t.name, .known 0 0)
  | .templateInstance t => some (lower t.name, .known 1 1)
  | .value v => some (lower v.name, .known 0 1)
  | .class_ c => some (lower c.name, .known 0 0)
  | .generic g => some (lower g.name, g.effect.counts)
  | .method _ => none
  | .rawFactor _ => none
  | .topLevel _ _ => none
  | .needs _ _ => none

def seedEffects (items : List Item) (prior : Dict String Effect) : Dict String Effect :=
  items.foldl (fun eff item =>
    match item.seedEffect with
    | some (lc, e) => Dict.insert eff lc e
    | none => eff) prior

structure Inferred where
  userEffects : Dict String Effect
  bodyEffects : Dict String Effect

/-- One definition of the inference pass. -/
def inferDefinition (wordTargets : Dict Span Target) (inf : Inferred × List EffectError)
    (d : Definition) : Inferred × List EffectError :=
  let env : EffectEnv := ⟨inf.1.userEffects, wordTargets⟩
  let bodyEff := inferBlock env d.body
  let lc := lower d.name
  (⟨if d.effect.isNone then Dict.insert inf.1.userEffects lc bodyEff else inf.1.userEffects,
      Dict.insert inf.1.bodyEffects lc bodyEff⟩,
    inf.2 ++ checkDefinition d bodyEff ++ collectCaseWarnings env d.name d.body)

def definitions (items : List Item) : List Definition :=
  items.filterMap fun
    | .definition d => some d
    | _ => none

def inferWithPrior (r : Resolved) (priorEffects : Dict String Effect) :
    Inferred × List EffectError :=
  (definitions r.program.items).foldl (inferDefinition r.wordTargets)
    (⟨seedEffects r.program.items priorEffects, []⟩, [])

end FactorForth.Compiler
