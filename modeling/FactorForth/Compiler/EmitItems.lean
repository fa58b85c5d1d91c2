import FactorForth.Compiler.Emit
import Mathlib.Data.List.Sort

/-! Emission of the items: the definition forms of each kind, and the passes in which the compiler
writes them. -/

namespace FactorForth.Compiler
open FactorForth.Library

mutual
def exprUsesLocals : Expr → Bool
  | .locals _ _ => true
  | .ifElse thenBody none _ => bodyUsesLocals thenBody
  | .ifElse thenBody (some elseBody) _ => bodyUsesLocals thenBody || bodyUsesLocals elseBody
  | .beginUntil body _ => bodyUsesLocals body
  | .beginAgain body _ => bodyUsesLocals body
  | .doLoop _ body _ _ => bodyUsesLocals body
  | .beginWhileRepeat pred body _ => bodyUsesLocals pred || bodyUsesLocals body
  | .caseOf arms none _ => armsUseLocals arms
  | .caseOf arms (some default) _ => armsUseLocals arms || bodyUsesLocals default
  | _ => false

def armsUseLocals : List (CaseArm Expr) → Bool
  | [] => false
  | ⟨matchExpr, body, _⟩ :: arms =>
    bodyUsesLocals matchExpr || bodyUsesLocals body || armsUseLocals arms

def bodyUsesLocals : List Expr → Bool
  | [] => false
  | e :: es => exprUsesLocals e || bodyUsesLocals es
end

/-! The `USING:` line. -/

def Item.isClassSystem : Item → Bool
  | .class_ _ => true
  | .generic _ => true
  | .method _ => true
  | .rawFactor _ => true
  | _ => false

def Item.isMethodSystem : Item → Bool
  | .generic _ => true
  | .method _ => true
  | _ => false

def Item.needsLocalsVocab : Item → Bool
  | .definition d => !d.locals.isEmpty || bodyUsesLocals d.body
  | .method m => m.kind != .primary || !m.locals.isEmpty || bodyUsesLocals m.body
  | _ => false

def vocabsNeeded (r : Sema) : List String :=
  let base := ["kernel", "math", "io", "forth.runtime", "namespaces", "math.functions",
    "math.order", "math.constants", "math.libm"]
  let classSystem :=
    if r.program.items.any Item.isClassSystem then ["classes.tuple", "accessors"] else []
  let methods := if r.program.items.any Item.isMethodSystem then ["multi-methods"] else []
  let locals := if r.program.items.any Item.needsLocalsVocab then ["locals"] else []
  let targets := r.wordTargets.filterMap fun p => p.2.vocab
  (base ++ classSystem ++ methods ++ locals ++ targets).dedup.insertionSort (· ≤ ·)

/-! Declarations. -/

def mangled (name : String) : String := factorUserName (lower name)

def userTok (name : String) : Tok := .word (.userDefined name)

def bufferTok : Tok := .name "<buffer>"

/-- `SYMBOL: s`, its value, and a word that starts by reading it. -/
def emitStorage (symbol : String) (init : List Tok) (name : String) (effect : EffectText)
    (access : List Tok) : Ir :=
  [.symbol symbol, .exec (init ++ [.symbol symbol, setGlobal]),
    .colon name effect (.symbol symbol :: getGlobal :: access) true]

def emitVariable (v : VariableDef) (r : Sema) : Ir :=
  if r.escape.lookup (lower v.name) = some .narrow then
    [.symbol (mangled v.name), .exec [.int 0, .symbol (mangled v.name), setGlobal]]
  else
    emitStorage ("nf-var-" ++ lower v.name) [.name "<variable>"] (mangled v.name) ⟨[], ["addr"]⟩ []

/-- The declaration of a VALUE; its initial code runs elsewhere. -/
def emitValueDecl (v : ValueDef) : Ir :=
  let storage := valueStorageName (lower v.name)
  [.symbol storage, .colon (mangled v.name) ⟨[], ["v"]⟩ [.symbol storage, getGlobal] true]

def emitValueSeed (v : ValueDef) (r : Sema) : Line :=
  .exec (emitExprs r v.initial ++ [.symbol (valueStorageName (lower v.name)), setGlobal])

def emitCollection (c : CollectionDef) : Ir :=
  let bytes := max (saturatingMul c.count c.kind.eltSize) 1
  emitStorage ("nf-coll-" ++ lower c.name) [.int bytes, bufferTok] (mangled c.name)
    ⟨["idx"], ["addr"]⟩
    [.word (.builtin "kernel" "swap"), .int c.kind.eltSize, .word (.builtin "math" "*"),
      runtimeWord "nf-addr+"]

def emitCreate (c : CreateDef) : Ir :=
  emitStorage ("nf-create-" ++ lower c.name) [.int (max c.allottedBytes 1), bufferTok]
    (mangled c.name) ⟨[], ["addr"]⟩ []

/-- The names that get the `forth.runtime` prefix in a DOES> body. -/
def doesPrefixed : List String :=
  ["cells", "chars", "floats", "cell+", "char+", "@", "!", "c@", "c!", "+!", "f@", "f!", "nf-!",
    "nf-c!", "nf-+!", "nf-f!", "type", "cmove", "fill", "bl"]

def emitDoesWord (name : String) : Tok :=
  if doesPrefixed.contains (lower name) then runtimeWord (lower name) else .name name

def emitDoesExpr : Expr → Tok
  | .wordRef name _ => if name = "+" then runtimeWord "nf-addr+" else emitDoesWord name
  | .lit (.int value _) => .int value
  | .lit (.float value _) => .float value
  | _ => .name "/* deferred-does-expr */"

def emitDoesBody (exprs : List Expr) : List Tok := exprs.map emitDoesExpr

def emitTemplateInstance (t : TemplateInstanceDef) : Ir :=
  emitStorage ("nf-tmpl-" ++ lower t.name) [.int (max t.allocatedBytes 1), bufferTok]
    (mangled t.name) ⟨["idx"], ["addr"]⟩ (emitDoesBody t.doesBody)

def emitConstant (c : ConstantDef) (r : Sema) : Line :=
  match c.value with
  | .int v => .constant (mangled c.name) (.int v)
  | .float v => .constant (mangled c.name) (.float v)
  | .computed exprs =>
    .colon (mangled c.name) ⟨[], [if c.flavour = .float then "f" else "n"]⟩ (emitExprs r exprs) true

/-! Classes, generics and methods. -/

def emitSlotWords (n s : String) : Ir :=
  [.colon (factorUserName (n ++ ">" ++ s)) ⟨["p"], ["v"]⟩ [.name (s ++ ">>")] true,
    .colon (factorUserName (s ++ ">>" ++ n)) ⟨["p", "v"], ["p"]⟩ [.name (">>" ++ s)] true,
    .colon (factorUserName (n ++ "." ++ s ++ "!")) ⟨["v", "p"], []⟩
      [.word (.builtin "kernel" "swap"), .name (">>" ++ s), .prim .drop] true]

def emitClass (c : ClassDef) (r : Sema) : Ir :=
  let n := lower c.name
  let allSlots := slotsOf r.classSlots c
  .tuple (factorUserName n) (c.superclass.map mangled) (c.slots.map fun s => lower s.name) ::
    .colon (factorUserName ("<" ++ n ++ ">")) ⟨allSlots, ["p"]⟩
      [userTok (factorUserName n), .name "boa"] true ::
    allSlots.flatMap (emitSlotWords n)

/-- The generics that have a `METHOD-BEFORE:` or a `METHOD-AFTER:` in this compile. -/
def auxGenerics (items : List Item) : List String :=
  items.filterMap fun
    | .method m => if m.kind = .primary then none else some (lower m.genericName)
    | _ => none

def dropChain : Nat → List Tok
  | 0 => []
  | 1 => [.prim .drop]
  | n + 2 => .word (.builtin "kernel" "2drop") :: dropChain n

def ndrop (n : Nat) : List Tok := if n = 3 then [.word (.builtin "kernel" "3drop")] else dropChain n

def indexed (stem : String) (n : Nat) : List String :=
  (List.range n).map fun i => stem ++ toString i

def nameToks (names : List String) : List Tok := names.map .name

/-- The wrapper of a generic with auxiliary methods; a `:> ( … )` is written as single bindings. -/
def emitGenericWrapper (n : String) (numIn numOut : Nat) : Line :=
  let push := nameToks (indexed "a" numIn)
  let outs := indexed "r" numOut
  let aux := fun kind : String => if 0 < numIn then push ++ [userTok (n ++ kind)] else []
  .localsColon n ((indexed "a" numIn).map some) outs
    (aux ":before" ++ push ++ userTok (n ++ ":primary") ::
      outs.reverse.map (fun r => .bind (some r)) ++ aux ":after" ++ nameToks outs)

def emitGeneric (g : GenericDef) (aux : List String) : Ir :=
  let n := mangled g.name
  let numIn := g.effect.inputs.length
  if aux.contains (lower g.name) then
    [.generic (n ++ ":primary") ⟨g.effect.inputs, g.effect.outputs⟩,
      .generic (n ++ ":before") ⟨g.effect.inputs, []⟩,
      .generic (n ++ ":after") ⟨g.effect.inputs, []⟩] ++
    (if 0 < numIn then
      [.method (n ++ ":before") (List.replicate numIn "object") (ndrop numIn),
        .method (n ++ ":after") (List.replicate numIn "object") (ndrop numIn)]
    else []) ++
    [emitGenericWrapper n numIn g.effect.outputs.length]
  else [.generic n ⟨g.effect.inputs, g.effect.outputs⟩]

def specializerName (className : String) : String :=
  if lower className = "object" then "object" else mangled className

/-- One class for each input, in input order. -/
def emitSpecializerList (m : MethodDef) : List String :=
  if m.effect.inputs.isEmpty then ["object"]
  else (List.range m.effect.inputs.length).map fun pos =>
    match m.specializers.find? fun s => s.position = pos with
    | some s => specializerName s.className
    | none => "object"

def methodTarget (m : MethodDef) (aux : List String) : String :=
  mangled m.genericName ++ match m.kind with
    | .primary => if aux.contains (lower m.genericName) then ":primary" else ""
    | .before => ":before"
    | .after => ":after"

/-- The code of a body, inside `with-return` when an EXIT is left in it. -/
def emitBody (r : Sema) (body : List Expr) : List Tok :=
  if bodyUsesExit r.wordTargets body then [.quot (emitExprs r body), .prim .withReturn]
  else emitExprs r body

def methodUsesHelper (m : MethodDef) : Bool := !m.locals.isEmpty || bodyUsesLocals m.body

def methodHelperName (m : MethodDef) (helper : Nat) : String :=
  mangled m.genericName ++ "-mh" ++ toString helper

def methodHelperInputs (m : MethodDef) : List (Option String) :=
  if m.locals.isEmpty then (indexed "a" m.effect.inputs.length).map some
  else m.locals.map fun l => bindingName l.name

/-- A method, and the process-wide number of the last helper word. -/
def emitMethod (m : MethodDef) (r : Sema) (aux : List String) (helper : Nat) : Ir × Nat :=
  if methodUsesHelper m then
    let name := methodHelperName m (helper + 1)
    ([.localsColon name (methodHelperInputs m) (indexed "r" m.effect.outputs.length)
        (emitBody r m.body),
      .method (methodTarget m aux) (emitSpecializerList m) [userTok name]], helper + 1)
  else ([.method (methodTarget m aux) (emitSpecializerList m) (emitBody r m.body)], helper)

/-! Colon definitions. -/

/-- A name of a stack comment as Factor's parser takes it. -/
def sanitize (name : String) : String :=
  if name = "..." then "_dots_"
  else String.ofList (name.toList.map fun c => if c = '.' then '_' else c)

/-- The same for names that are bound, where a name without a dot is folded too. -/
def sanitizeBound (name : String) : String :=
  if name.toList.contains '.' then sanitize name else lower name

def rowVars : EffectText := ⟨["..a"], ["..b"]⟩

def synthEffectAnnotation (inputs outputs : Nat) : EffectText :=
  ⟨(List.range inputs).map fun i => String.singleton (Char.ofNat ('a'.toNat + i % 26)),
    indexed "r" outputs⟩

def declaredAnnotation (se : StackEffect) : EffectText :=
  ⟨se.inputs.map sanitize, se.outputs.map sanitize⟩

/-- The annotation of a definition without locals: the declared names where the counts agree with
the inferred effect or nothing is inferred, and the inferred counts elsewhere. -/
def plainAnnotation (declared : Option StackEffect) (synth : Option Effect) : EffectText :=
  match declared, synth with
  | some se, some (.known inputs outputs) =>
    if se.inputs.length = inputs ∧ se.outputs.length = outputs then declaredAnnotation se
    else synthEffectAnnotation inputs outputs
  | some se, _ => declaredAnnotation se
  | none, some (.known inputs outputs) => synthEffectAnnotation inputs outputs
  | none, _ => rowVars

/-- The outputs of a definition with head locals. -/
def localsOutputs (declared : Option StackEffect) (synth : Option Effect) : List String :=
  match declared, synth with
  | some se, _ => se.outputs.map sanitize
  | none, some (.known _ outputs) => indexed "r" outputs
  | none, _ => ["..b"]

/-- The annotation of a definition whose locals are all in its body; its inputs are bound and then
pushed back. -/
def midLocalsAnnotation (declared : Option StackEffect) (synth : Option Effect) :
    Option EffectText :=
  match declared, synth with
  | some se, _ => some ⟨se.inputs.map sanitizeBound, se.outputs.map sanitizeBound⟩
  | none, some (.known inputs outputs) => some ⟨indexed "_mi" inputs, indexed "r" outputs⟩
  | none, _ => none

def emitDefinition (d : Definition) (r : Sema) : Line :=
  let name := mangled d.name
  let synth := r.bodyEffects.lookup (lower d.name)
  if !d.locals.isEmpty then
    .localsColon name (d.locals.map fun l => bindingName l.name) (localsOutputs d.effect synth)
      (emitBody r d.body)
  else if bodyUsesLocals d.body then
    match midLocalsAnnotation d.effect synth with
    | some ann =>
      .localsColon name (ann.inputs.map some) ann.outputs (nameToks ann.inputs ++ emitBody r d.body)
    | none => .localsColon name (rowVars.inputs.map some) rowVars.outputs (emitBody r d.body)
  else .colon name ( plainAnnotation d.effect synth) (emitBody r d.body) false

/-! The passes. -/

/-- Pass A: what is written before all methods and colon words, in source order. -/
def Item.declaration (r : Sema) (aux : List String) : Item → Ir
  | .variable v => emitVariable v r
  | .constant c => [emitConstant c r]
  | .create c => emitCreate c
  | .collection c => emitCollection c
  | .templateInstance t => emitTemplateInstance t
  | .value v => emitValueDecl v
  | .class_ c => emitClass c r
  | .generic g => emitGeneric g aux
  | .rawFactor raw => [.raw raw.source]
  | _ => []

/-- Pass B': methods, after every class and generic. -/
def emitMethods (r : Sema) (aux : List String) : List Item → Nat → Ir × Nat
  | [], helper => ([], helper)
  | .method m :: items, helper =>
    let (ir, helper) := emitMethod m r aux helper
    let (rest, helper) := emitMethods r aux items helper
    (ir ++ rest, helper)
  | _ :: items, helper => emitMethods r aux items helper

theorem emitMethods_method (r : Sema) (aux : List String) (m : MethodDef) (items : List Item)
    (helper : Nat) : (emitMethods r aux (.method m :: items) helper).1 =
      (emitMethod m r aux helper).1 ++ (emitMethods r aux items (emitMethod m r aux helper).2).1 := rfl

/-- Pass B: colon definitions in source order. -/
def Item.colonWord (r : Sema) : Item → Ir
  | .definition d => [emitDefinition d r]
  | _ => []

/-- Pass D: load-time execution in source order. -/
def Item.execution (r : Sema) : Item → Ir
  | .topLevel exprs _ => [.exec (emitExprs r exprs)]
  | .value v => [emitValueSeed v r]
  | _ => []

def emit (r : Sema) (flushAtEnd : Bool) (helper : Nat) : Ir × Nat :=
  let items := r.program.items
  let aux := auxGenerics items
  let (methods, helper) := emitMethods r aux items helper
  ([.using_ (vocabsNeeded r), .inScratchpad] ++ items.flatMap (Item.declaration r aux) ++ methods ++
    items.flatMap (Item.colonWord r) ++ items.flatMap (Item.execution r) ++
    (if flushAtEnd then [.flush] else []), helper)

end FactorForth.Compiler
