import FactorForth.Compiler.Dictionary

/-! Word resolution: every reference is bound to a local, a user word or a builtin, in that order,
and the binding is recorded under the span of the reference. -/

namespace FactorForth.Compiler
open FactorForth.Library

inductive ResolveError where
  | unknownWord (name : String) (at_ : Span)
  | redefinedWord (name : String) (at_ prev : Span)
  | recurseNeedsEffect (word : String) (at_ : Span)
  | toNotValue (name : String) (at_ : Span)
deriving DecidableEq, Repr

def ResolveError.display : ResolveError → String
  | .unknownWord name at_ => "unknown word `" ++ name ++ "` at " ++ at_.display
  | .redefinedWord name at_ prev =>
    "redefinition of `" ++ name ++ "` at " ++ at_.display ++
      " (previously defined at " ++ prev.display ++ ")"
  | .recurseNeedsEffect word at_ =>
    "`" ++ word ++ "` at " ++ at_.display ++ " uses RECURSE but has no stack-effect annotation " ++
      "— add `( ... -- ... )` after the name"
  | .toNotValue name at_ =>
    "`TO " ++ name ++ "` at " ++ at_.display ++ ": `" ++ name ++
      "` is not a VALUE (TO only works on VALUEs)"

structure Resolved where
  program : Program
  wordTargets : Dict Span Target
  userWords : Dict String Span

/-- The names one body is resolved against. -/
structure Scope where
  userWords : Dict String Span
  valueNames : Dict String Span
  locals : List String

/-- The resolver's rule for one name: local, then user word, then builtin. -/
def Scope.target (sc : Scope) (name : String) : Option Target :=
  let lc := lower name
  if sc.locals.contains lc then some (.local_ lc)
  else if Dict.contains sc.userWords lc then some (.userDefined (factorUserName lc))
  else builtinTable.lookup lc

def resolveName (sc : Scope) (name : String) (span : Span) (out : Dict Span Target) :
    Except ResolveError (Dict Span Target) :=
  match sc.target name with
  | some t => .ok (Dict.insert out span t)
  | none => .error (.unknownWord name span)

mutual
def resolveExpr (sc : Scope) : Expr → Dict Span Target → Except ResolveError (Dict Span Target)
  | .lit _, out => .ok out
  | .wordRef name span, out => resolveName sc name span out
  | .toValue name span, out =>
    if Dict.contains sc.valueNames (lower name) then .ok out else .error (.toNotValue name span)
  | .see _ _, out => .ok out
  | .ifElse thenBody none _, out => resolveExprs sc thenBody out
  | .ifElse thenBody (some elseBody) _, out => do
    let out ← resolveExprs sc thenBody out
    resolveExprs sc elseBody out
  | .beginUntil body _, out => resolveExprs sc body out
  | .beginAgain body _, out => resolveExprs sc body out
  | .beginWhileRepeat pred body _, out => do
    let out ← resolveExprs sc pred out
    resolveExprs sc body out
  | .doLoop _ body _ _, out => resolveExprs sc body out
  | .caseOf arms none _, out => resolveArms sc arms out
  | .caseOf arms (some default) _, out => do
    let out ← resolveArms sc arms out
    resolveExprs sc default out
  | .tick name span, out => resolveName sc name span out
  | .letForm _ _, out => .ok out
  | .locals _ _, out => .ok out

def resolveArms (sc : Scope) :
    List (CaseArm Expr) → Dict Span Target → Except ResolveError (Dict Span Target)
  | [], out => .ok out
  | ⟨matchExpr, body, _⟩ :: arms, out => do
    let out ← resolveExprs sc matchExpr out
    let out ← resolveExprs sc body out
    resolveArms sc arms out

def resolveExprs (sc : Scope) :
    List Expr → Dict Span Target → Except ResolveError (Dict Span Target)
  | [], out => .ok out
  | e :: es, out => do
    let out ← resolveExpr sc e out
    resolveExprs sc es out
end

/-- The lower-case names a `{: … :}` block binds; `_` binds none. -/
def localNames (names : List LocalDecl) : List String :=
  (names.filter fun l => l.name != "_").map fun l => lower l.name

mutual
def exprLocals : Expr → List String
  | .locals names _ => localNames names
  | .ifElse thenBody none _ => collectBodyLocals thenBody
  | .ifElse thenBody (some elseBody) _ => collectBodyLocals thenBody ++ collectBodyLocals elseBody
  | .beginUntil body _ => collectBodyLocals body
  | .beginAgain body _ => collectBodyLocals body
  | .doLoop _ body _ _ => collectBodyLocals body
  | .beginWhileRepeat pred body _ => collectBodyLocals pred ++ collectBodyLocals body
  | .caseOf arms none _ => armsLocals arms
  | .caseOf arms (some default) _ => armsLocals arms ++ collectBodyLocals default
  | _ => []

def armsLocals : List (CaseArm Expr) → List String
  | [] => []
  | ⟨matchExpr, body, _⟩ :: arms =>
    collectBodyLocals matchExpr ++ collectBodyLocals body ++ armsLocals arms

def collectBodyLocals : List Expr → List String
  | [] => []
  | e :: es => exprLocals e ++ collectBodyLocals es
end

/-- Every name a class declaration brings into being. -/
def classSynthesisedNames (c : ClassDef) (allSlots : List String) : List (String × Span) :=
  let classLc := lower c.name
  [(classLc, c.nameSpan), ("<" ++ classLc ++ ">", c.nameSpan), (classLc ++ "?", c.nameSpan)] ++
    allSlots.flatMap fun s =>
      [(classLc ++ ">" ++ s, c.nameSpan), (s ++ ">>" ++ classLc, c.nameSpan),
        (classLc ++ "." ++ s ++ "!", c.nameSpan)]

/-- Flattened slot lists, parent slots first, of the classes known before and the program's own. -/
def computeClassSlots (prog : Program) (priorClasses : Dict String (List String)) :
    Dict String (List String) :=
  prog.items.foldl (fun out item =>
    match item with
    | .class_ c =>
      let inherited := match c.superclass with
        | some parent => (out.lookup (lower parent)).getD []
        | none => []
      Dict.insert out (lower c.name) (inherited ++ c.slots.map fun s => lower s.name)
    | _ => out) priorClasses

/-- The names an item introduces, with the span reported for each. -/
def Item.introduced (classSlots : Dict String (List String)) : Item → List (String × Span)
  | .definition d => [(d.name, d.nameSpan)]
  | .variable v => [(v.name, v.nameSpan)]
  | .constant c => [(c.name, c.nameSpan)]
  | .create c => [(c.name, c.nameSpan)]
  | .collection c => [(c.name, c.nameSpan)]
  | .template t => [(t.name, t.nameSpan)]
  | .templateInstance t => [(t.name, t.nameSpan)]
  | .value v => [(v.name, v.nameSpan)]
  | .class_ c => classSynthesisedNames c ((classSlots.lookup (lower c.name)).getD [])
  | .generic g => [(g.name, g.nameSpan)]
  | .method _ => []
  | .rawFactor _ => []
  | .topLevel _ _ => []
  | .needs _ _ => []

def register : List (String × Span) → Dict String Span → Except ResolveError (Dict String Span)
  | [], words => .ok words
  | (name, span) :: rest, words =>
    match words.lookup (lower name) with
    | some prev => .error (.redefinedWord name span prev)
    | none => register rest (Dict.insert words (lower name) span)

def localValueNames (items : List Item) : Dict String Span :=
  items.foldl (fun out item =>
    match item with
    | .value v => Dict.insert out (lower v.name) v.nameSpan
    | _ => out) []

/-- The bodies of an item that the resolver walks, each with its locals. -/
def Item.resolvedBodies : Item → List (List String × List Expr)
  | .definition d => [(localNames d.locals ++ collectBodyLocals d.body, d.body)]
  | .topLevel exprs _ => [([], exprs)]
  | .constant c => match c.value with
    | .computed exprs => [([], exprs)]
    | _ => []
  | .value v => [([], v.initial)]
  | .template t => [([], t.constructor), ([], t.doesBody)]
  | .method m => [(localNames m.locals ++ collectBodyLocals m.body, m.body)]
  | _ => []

def resolveBodies (userWords valueNames : Dict String Span) :
    List (List String × List Expr) → Dict Span Target →
      Except ResolveError (Dict Span Target)
  | [], out => .ok out
  | (locals, body) :: rest, out => do
    let out ← resolveExprs ⟨userWords, valueNames, locals⟩ body out
    resolveBodies userWords valueNames rest out

def resolve (prog : Program) (priorUserWords priorValueNames : Dict String Span)
    (classSlots : Dict String (List String)) : Except ResolveError Resolved := do
  let userWords ← register (prog.items.flatMap (Item.introduced classSlots)) []
  let combined := Dict.merge priorUserWords userWords
  let combinedValues := Dict.merge priorValueNames (localValueNames prog.items)
  let wordTargets ← resolveBodies combined combinedValues
    (prog.items.flatMap Item.resolvedBodies) []
  return ⟨prog, wordTargets, userWords⟩

end FactorForth.Compiler
