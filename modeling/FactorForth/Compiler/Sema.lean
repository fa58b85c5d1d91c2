import FactorForth.Compiler.LowerQdup
import FactorForth.Compiler.Effect

/-! The semantic model of a program: template expansion, the passes in their order, and the tables
that later stages read. -/

namespace FactorForth.Compiler
open FactorForth.Library

inductive EscapeReason where
  | duplicated
  | passedToUnknownWord
  | addressArithmetic
  | unknownSink
  | printedAsValue
  | interactiveSession
deriving DecidableEq, Repr

inductive EscapeState where
  | narrow
  | wide (reason : EscapeReason) (at_ : Span)
  | unknown
deriving DecidableEq, Repr

structure UserWord where
  name : String
  defSpan : Span
  declaredInputs : Option Nat
  declaredOutputs : Option Nat

/-- One record of what `SEE` shows about a name. -/
structure WordDoc where
  kind : String
  effect : String
  source : String
  detail : String
deriving DecidableEq, Repr

structure Sema where
  program : Program
  wordTargets : Dict Span Target
  userWords : Dict String UserWord
  templates : Dict String TemplateDef
  values : Dict String ValueDef
  classSlots : Dict String (List String)
  userEffects : Dict String Effect
  bodyEffects : Dict String Effect
  effectErrors : List EffectError
  escape : Dict String EscapeState
  docs : Dict String WordDoc

/-! Template expansion. -/

/-- Bytes for `count` units; the last multiplier word of the constructor decides the unit. -/
def computeAllocBytes (tmpl : TemplateDef) (count : Nat) : Nat :=
  let unit := tmpl.constructor.foldl (fun unit e =>
    match e with
    | .wordRef name _ =>
      match lower name with
      | "cells" => 8
      | "floats" => 8
      | "chars" => 1
      | _ => unit
    | _ => unit) 1
  max (saturatingMul count unit) 1

def spanOf (first last : Expr) : Span := ⟨first.span.start, last.span.stop⟩

def flushCurrent (current : List Expr) : List Item :=
  match current with
  | [] => []
  | first :: rest => [.topLevel current (spanOf first ((first :: rest).getLast (by simp)))]

/-- A literal count that a template triple may take from the end of the current run. -/
def countLit : Option Expr → Option Nat
  | some (.lit (.int value _)) => if 0 ≤ value then some (asU32 value) else none
  | _ => none

/-- The walk over a top-level run; `current` is the run since the last instance. -/
def expandToplevel (templates : Dict String TemplateDef) : List Expr → List Expr → List Item
  | current, [] => flushCurrent current
  | current, [e] => flushCurrent (current ++ [e])
  | current, e :: next :: rest =>
    match e, next, countLit current.getLast? with
    | .wordRef name _, .wordRef newname newnameSpan, some count =>
      match templates.lookup (lower name) with
      | some tmpl =>
        flushCurrent current.dropLast ++
          .templateInstance ⟨newname, newnameSpan, tmpl.name, computeAllocBytes tmpl count,
            tmpl.doesBody, ⟨(current.getLast?.getD next).span.start, newnameSpan.stop⟩⟩ ::
          expandToplevel templates [] rest
      | none => expandToplevel templates (current ++ [e]) (next :: rest)
    | _, _, _ => expandToplevel templates (current ++ [e]) (next :: rest)

def expandTemplates (prog : Program) (priorTemplates : Dict String TemplateDef) : Program :=
  let templates := prog.items.foldl (fun ts item =>
    match item with
    | .template t => Dict.insert ts (lower t.name) t
    | _ => ts) priorTemplates
  if templates.isEmpty then prog
  else ⟨prog.items.flatMap fun item =>
    match item with
    | .topLevel exprs _ => expandToplevel templates [] exprs
    | other => [other]⟩

/-- An expansion consists of top-level runs and of instances of the templates it looked up. -/
theorem expandToplevel_items {templates : Dict String TemplateDef} {P : Item → Prop}
    (hTop : ∀ exprs span, P (.topLevel exprs span))
    (hInstance : ∀ k t ti, templates.lookup k = some t → ti.templateName = t.name →
      ti.doesBody = t.doesBody → P (.templateInstance ti)) (current es : List Expr) :
    ∀ item ∈ expandToplevel templates current es, P item := by
  have hFlush : ∀ exprs, ∀ item ∈ flushCurrent exprs, P item := by
    intro exprs item hItem
    cases exprs with
    | nil => cases hItem
    | cons e es =>
      rw [List.mem_singleton.mp hItem]
      exact hTop _ _
  fun_induction expandToplevel templates current es with
  | case1 current => exact hFlush current
  | case2 current e => exact hFlush _
  | case3 current rest name nameSpan newname newnameSpan count hCount tmpl hTmpl ih =>
    intro item hItem
    rcases List.mem_append.mp hItem with hFront | hBack
    · exact hFlush _ item hFront
    · rcases List.mem_cons.mp hBack with rfl | hRest
      · exact hInstance _ tmpl _ hTmpl rfl rfl
      · exact ih item hRest
  | case4 current rest name nameSpan newname newnameSpan count hCount hTmpl ih => exact ih
  | case5 current e next rest hOther ih => exact ih

/-! Escape analysis of variable addresses. -/

def isNarrowSink (name : String) : Bool := ["@", "!", "+!", "c@", "c!"].contains (lower name)

def markEscape (escape : Dict String EscapeState) (lc : String) (span : Span) :
    Dict String EscapeState :=
  match escape.lookup lc with
  | some (.wide _ _) => escape
  | _ => Dict.insert escape lc (.wide .unknownSink span)

mutual
def exprEscape (varNames : List String) :
    Expr → Dict String EscapeState → Dict String EscapeState
  | .ifElse thenBody none _, esc => blockEscape varNames thenBody esc
  | .ifElse thenBody (some elseBody) _, esc =>
    blockEscape varNames elseBody (blockEscape varNames thenBody esc)
  | .beginUntil body _, esc => blockEscape varNames body esc
  | .beginAgain body _, esc => blockEscape varNames body esc
  | .doLoop _ body _ _, esc => blockEscape varNames body esc
  | .beginWhileRepeat pred body _, esc => blockEscape varNames body (blockEscape varNames pred esc)
  | .caseOf arms none _, esc => armsEscape varNames arms esc
  | .caseOf arms (some default) _, esc => blockEscape varNames default (armsEscape varNames arms esc)
  | _, esc => esc

def armsEscape (varNames : List String) :
    List (CaseArm Expr) → Dict String EscapeState → Dict String EscapeState
  | [], esc => esc
  | ⟨matchExpr, body, _⟩ :: arms, esc =>
    armsEscape varNames arms (blockEscape varNames body (blockEscape varNames matchExpr esc))

/-- A reference to a variable escapes unless the next word of the same block is a sink. -/
def blockEscape (varNames : List String) :
    List Expr → Dict String EscapeState → Dict String EscapeState
  | [], esc => esc
  | e :: es, esc =>
    let esc := exprEscape varNames e esc
    let esc := match e, es with
      | .wordRef name span, .wordRef next _ :: _ =>
        if varNames.contains (lower name) && !isNarrowSink next then
          markEscape esc (lower name) span
        else esc
      | .wordRef name span, _ =>
        if varNames.contains (lower name) then markEscape esc (lower name) span else esc
      | _, _ => esc
    blockEscape varNames es esc
end

def Item.escapeBodies : Item → List (List Expr)
  | .definition d => [d.body]
  | .topLevel exprs _ => [exprs]
  | .constant c => match c.value with
    | .computed exprs => [exprs]
    | _ => []
  | .value v => [v.initial]
  | .template t => [t.constructor, t.doesBody]
  | .templateInstance t => [t.doesBody]
  | .method m => [m.body]
  | _ => []

def analyseEscape (items : List Item) : Dict String EscapeState :=
  let varNames := items.filterMap fun
    | .variable v => some (lower v.name)
    | _ => none
  let start := varNames.foldl (fun esc n => Dict.insert esc n .narrow) []
  (items.flatMap Item.escapeBodies).foldl (fun esc body => blockEscape varNames body esc) start

/-! Tables of the items. -/

def Item.userWord : Item → Option UserWord
  | .definition d => some ⟨d.name, d.nameSpan, d.effect.map fun se => se.inputs.length,
      d.effect.map fun se => se.outputs.length⟩
  | .variable v => some ⟨v.name, v.nameSpan, none, none⟩
  | .constant c => some ⟨c.name, c.nameSpan, none, none⟩
  | .create c => some ⟨c.name, c.nameSpan, none, none⟩
  | .collection c => some ⟨c.name, c.nameSpan, none, none⟩
  | .template t => some ⟨t.name, t.nameSpan, none, none⟩
  | .templateInstance t => some ⟨t.name, t.nameSpan, none, none⟩
  | .value v => some ⟨v.name, v.nameSpan, some 0, some 1⟩
  | .class_ c => some ⟨c.name, c.nameSpan, some 0, some 0⟩
  | .generic g => some ⟨g.name, g.nameSpan, some g.effect.inputs.length,
      some g.effect.outputs.length⟩
  | .method _ => none
  | .rawFactor _ => none
  | .topLevel _ _ => none
  | .needs _ _ => none

/-- The constructor, predicate and accessors of a class, with their stack counts. -/
def classUserWords (c : ClassDef) (allSlots : List String) : List (String × UserWord) :=
  let classLc := lower c.name
  [("<" ++ classLc ++ ">", ⟨"<" ++ c.name ++ ">", c.nameSpan, some allSlots.length, some 1⟩),
    (classLc ++ "?", ⟨c.name ++ "?", c.nameSpan, some 1, some 1⟩)] ++
    allSlots.flatMap fun s =>
      [(classLc ++ ">" ++ s, ⟨c.name ++ ">" ++ s, c.nameSpan, some 1, some 1⟩),
        (s ++ ">>" ++ classLc, ⟨s ++ ">>" ++ c.name, c.nameSpan, some 2, some 1⟩),
        (classLc ++ "." ++ s ++ "!", ⟨c.name ++ "." ++ s ++ "!", c.nameSpan, some 2, some 0⟩)]

/-- The effects recorded for the words of a class; the predicate gets none. -/
def classSynthEffects (classLc : String) (allSlots : List String) : List (String × Effect) :=
  ("<" ++ classLc ++ ">", .known allSlots.length 1) ::
    allSlots.flatMap fun s =>
      [(classLc ++ ">" ++ s, .known 1 1), (s ++ ">>" ++ classLc, .known 2 1),
        (classLc ++ "." ++ s ++ "!", .known 2 0)]

def classes (items : List Item) : List ClassDef :=
  items.filterMap fun
    | .class_ c => some c
    | _ => none

def slotsOf (classSlots : Dict String (List String)) (c : ClassDef) : List String :=
  (classSlots.lookup (lower c.name)).getD []

def seedClassSynthEffects (items : List Item) (classSlots : Dict String (List String))
    (effects : Dict String Effect) : Dict String Effect :=
  (classes items).foldl (fun eff c =>
    (classSynthEffects (lower c.name) (slotsOf classSlots c)).foldl
      (fun eff p => Dict.insert eff p.1 p.2) eff) effects

def collectUserWords (items : List Item) (classSlots : Dict String (List String)) :
    Dict String UserWord :=
  let named := (items.filterMap Item.userWord).foldl
    (fun words w => Dict.insert words (lower w.name) w) []
  (classes items).foldl (fun words c =>
    (classUserWords c (slotsOf classSlots c)).foldl
      (fun words p => Dict.orInsert words p.1 p.2) words) named

def collectTemplates (items : List Item) : Dict String TemplateDef :=
  items.foldl (fun ts item =>
    match item with
    | .template t => Dict.insert ts (lower t.name) t
    | _ => ts) []

def collectValues (items : List Item) : Dict String ValueDef :=
  items.foldl (fun vs item =>
    match item with
    | .value v => Dict.insert vs (lower v.name) v
    | _ => vs) []

def Item.lowerExit (wordTargets : Dict Span Target) : Item → Item
  | .definition d => .definition { d with body := lowerBody d.body wordTargets }
  | item => item

/-- What a compile knows from the compiles before it. -/
structure PriorState where
  userWords : Dict String Span
  effects : Dict String Effect
  templates : Dict String TemplateDef
  values : Dict String Span
  classes : Dict String (List String)

/-- The part of the build behind resolution, which cannot fail. -/
def semaOfResolved (resolved : Resolved) (classSlots : Dict String (List String))
    (priorEffects : Dict String Effect) : Sema :=
  let items := resolved.program.items.map (Item.lowerExit resolved.wordTargets)
  let lowered : Resolved := { resolved with program := ⟨items⟩ }
  let (inferred, effectErrors) := inferWithPrior lowered priorEffects
  { program := lowered.program
    wordTargets := resolved.wordTargets
    userWords := collectUserWords items classSlots
    templates := collectTemplates items
    values := collectValues items
    classSlots := classSlots
    userEffects := seedClassSynthEffects items classSlots inferred.userEffects
    bodyEffects := inferred.bodyEffects
    effectErrors := effectErrors
    escape := analyseEscape items
    docs := [] }

/-- The program as the resolver sees it, and the definitions that use RECURSE unannotated. -/
def prepare (prog : Program) (priorTemplates : Dict String TemplateDef) (synth : Nat) :
    (Program × List MissingRecurseEffect) × Nat :=
  let (prog, synth) := lowerQdup (expandTemplates prog priorTemplates) synth
  (lowerRecurse prog, synth)

def buildWithPriorState (prog : Program) (prior : PriorState) (synth : Nat) :
    Except ResolveError Sema × Nat :=
  let ((prog, missing), synth) := prepare prog prior.templates synth
  match missing with
  | first :: _ => (.error (.recurseNeedsEffect first.wordName first.at_), synth)
  | [] =>
    let classSlots := computeClassSlots prog prior.classes
    match resolve prog prior.userWords prior.values classSlots with
    | .error e => (.error e, synth)
    | .ok resolved => (.ok (semaOfResolved resolved classSlots prior.effects), synth)

end FactorForth.Compiler
