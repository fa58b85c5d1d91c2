import FactorForth.Compiler.LetCodegen
import Mathlib.Algebra.Order.Field.Basic
import Mathlib.Data.Rat.Cast.Defs

/-! What a LET form means, over any interpretation of its arithmetic, and the machine that its code runs
on: a stack of values and flags, and the locals bound so far. -/

namespace FactorForth.Semantics.LetForms
open FactorForth.Library FactorForth.Compiler.LetLang
open FactorForth.Compiler (FloatLit lower factorUserName)

/-- Values with the operations of the formulas. An operation may be undefined, as arithmetic on an
object is, or a getter on a number. -/
structure Interpretation (V : Type) where
  lit : FloatLit → V
  /-- A flag as a number. -/
  truth : Bool → V
  add : V → V → Option V
  sub : V → V → Option V
  mul : V → V → Option V
  div : V → V → Option V
  neg : V → Option V
  same : V → V → Option Bool
  less : V → V → Option Bool
  more : V → V → Option Bool
  lessEq : V → V → Option Bool
  moreEq : V → V → Option Bool
  /-- The library functions, by their names in LET. -/
  fn : String → List V → Option V
  getter : String → V → Option V

namespace Interpretation
variable {V : Type} (I : Interpretation V)

/-- The general power. -/
def pow (x y : V) : Option V := I.fn "pow" [x, y]

/-- A product of equal factors. -/
def product (x : V) : Nat → Option V
  | 0 => none
  | 1 => some x
  | k + 2 => (product x (k + 1)).bind (I.mul x)

def binMeaning : BinOp → V → V → Option V
  | .add => I.add
  | .sub => I.sub
  | .mul => I.mul
  | .div => I.div
  | .pow => I.pow
  | .eq => fun x y => (I.same x y).map I.truth
  | .ne => fun x y => (I.same x y).map fun b => I.truth !b
  | .lt => fun x y => (I.less x y).map I.truth
  | .gt => fun x y => (I.more x y).map I.truth
  | .le => fun x y => (I.lessEq x y).map I.truth
  | .ge => fun x y => (I.moreEq x y).map I.truth

/-- A whole power from 1 to 8 is a product. -/
def Powers (f64 : FloatLit → Option Rat) : Prop :=
  ∀ n k, (f64 n).bind smallPower = some k → ∀ x, I.pow x (I.lit n) = I.product x k

/-- No operation of a formula is undefined. -/
structure Total : Prop where
  bin : ∀ op x y, ∃ v, I.binMeaning op x y = some v
  neg : ∀ x, ∃ v, I.neg x = some v
  fn : ∀ name args, ∃ v, I.fn name args = some v

/-- The interpretation computes with the numbers of an ordered field, exactly. Other values may be
objects. -/
structure Exact (f64 : FloatLit → Option Rat) (K : Type) [Field K] [LinearOrder K] where
  num : K → V
  lit : ∀ n q, f64 n = some q → I.lit n = num q
  truth : ∀ b, I.truth b = num (if b then 1 else 0)
  add : ∀ x y, I.add (num x) (num y) = some (num (x + y))
  sub : ∀ x y, I.sub (num x) (num y) = some (num (x - y))
  mul : ∀ x y, I.mul (num x) (num y) = some (num (x * y))
  div : ∀ x y, y ≠ 0 → I.div (num x) (num y) = some (num (x / y))
  neg : ∀ x, I.neg (num x) = some (num (-x))
  same : ∀ x y, I.same (num x) (num y) = some (decide (x = y))
  less : ∀ x y, I.less (num x) (num y) = some (decide (x < y))
  more : ∀ x y, I.more (num x) (num y) = some (decide (y < x))
  lessEq : ∀ x y, I.lessEq (num x) (num y) = some (decide (x ≤ y))
  moreEq : ∀ x y, I.moreEq (num x) (num y) = some (decide (y ≤ x))
  pow : I.Powers f64

end Interpretation

/-! The formula. -/

/-- The names bound so far, the latest first. -/
abbrev LetEnv (V : Type) : Type := List (String × V)

section Meaning
variable {V : Type} (I : Interpretation V)

mutual
def evalExpr (env : LetEnv V) : Expr → Option V
  | .lit n => some (I.lit n)
  | .var name => env.lookup name
  | .neg inner => (evalExpr env inner).bind I.neg
  | .bin op l r => (evalExpr env l).bind fun x => (evalExpr env r).bind fun y => I.binMeaning op x y
  | .call name args => (evalArgs env args).bind (I.fn name)

def evalArgs (env : LetEnv V) : List Expr → Option (List V)
  | [] => some []
  | e :: es => (evalExpr env e).bind fun v => (evalArgs env es).map (v :: ·)
end

/-- The inputs by name. -/
def inputEnv (form : LetForm) (inputs : List V) : LetEnv V :=
  ((form.inputs.map LetInput.name).zip inputs).reverse

/-- The aliases of an input, each for the slot at its position. -/
def slotAliases (classSlots : Dict String (List String)) (inp : LetInput) : List Alias :=
  match inp.destructure with
  | none => []
  | some d =>
    List.zipWith (fun alias_ slot => ⟨inp.name, alias_, factorUserName (lower d.cls ++ ">" ++ slot)⟩)
      d.slots ((classSlots.lookup (lower d.cls)).getD [])

/-- An alias is a slot of the input it is written for. -/
def bindAlias (inputs env : LetEnv V) (a : Alias) : Option (LetEnv V) :=
  (inputs.lookup a.input).bind fun object => (I.getter a.getter object).map fun v => (a.name, v) :: env

/-- A WHERE name hides what had its name before. -/
def bindWhere (env : LetEnv V) (w : String × Expr) : Option (LetEnv V) :=
  (evalExpr I env w.2).map fun v => (w.1, v) :: env

/-- The values of the results of a form. -/
def formMeaning (classSlots : Dict String (List String)) (form : LetForm) (inputs : List V) :
    Option (List V) := do
  let start := inputEnv form inputs
  let env ← (form.inputs.flatMap (slotAliases classSlots)).foldlM (bindAlias I start) start
  let env ← form.wheres.foldlM (bindWhere I) env
  evalArgs I env form.results

end Meaning

/-! The machine. -/

inductive Cell (V : Type) where
  | val (v : V)
  | flag (b : Bool)
deriving DecidableEq

/-- The topmost values of a stack, the deepest of them first, and what is below. -/
def popVals {V : Type} : Nat → List (Cell V) → Option (List V × List (Cell V))
  | 0, stack => some ([], stack)
  | n + 1, .val v :: stack => (popVals n stack).map fun p => (p.1 ++ [v], p.2)
  | _ + 1, _ => none

/-- Values on the stack, the last on top. -/
def onTop {V : Type} (vs : List V) (stack : List (Cell V)) : List (Cell V) :=
  vs.reverse.map .val ++ stack

/-- The library words, each with its function in LET and how many arguments it takes. -/
def libraryWords : List (String × String × Nat) := [
  ("math.functions:sqrt", "sqrt", 1),
  ("math:abs", "abs", 1),
  ("math.order:min", "min", 2),
  ("math.order:max", "max", 2),
  ("math.functions:floor", "floor", 1),
  ("math.functions:ceiling", "ceil", 1),
  ("math.functions:round", "round", 1),
  ("math.functions:truncate", "trunc", 1),
  ("math.functions:sin", "sin", 1),
  ("math.functions:cos", "cos", 1),
  ("math.functions:tan", "tan", 1),
  ("math.functions:asin", "asin", 1),
  ("math.functions:acos", "acos", 1),
  ("math.functions:atan", "atan", 1),
  ("math.libm:fatan2", "atan2", 2),
  ("math.functions:exp", "exp", 1),
  ("math.functions:log", "log", 1),
  ("math.functions:^", "pow", 2),
  ("math.functions:hypot", "hypot", 2),
  ("math.constants:pi", "pi", 0),
  ("math.constants:e", "e", 0)]

/-- How many arguments a function of LET takes, if it is one. -/
def functionArity (name : String) : Option Nat := (libraryWords.map Prod.snd).lookup name

/-! Forms with nothing unknown in them. -/

mutual
/-- Every variable is bound, and every call is of a library function, with as many arguments as it
takes. -/
def Scoped (bound : List String) : Expr → Prop
  | .lit _ => True
  | .var name => name ∈ bound
  | .neg inner => Scoped bound inner
  | .bin _ l r => Scoped bound l ∧ Scoped bound r
  | .call name args => functionArity name = some args.length ∧ ScopedArgs bound args

def ScopedArgs (bound : List String) : List Expr → Prop
  | [] => True
  | e :: es => Scoped bound e ∧ ScopedArgs bound es
end

/-- A WHERE name is bound for what is behind it. -/
def ScopedWheres (bound : List String) : List (String × Expr) → Prop
  | [] => True
  | (name, e) :: wheres => Scoped bound e ∧ ScopedWheres (name :: bound) wheres

def aliasNames (inp : LetInput) : List String :=
  match inp.destructure with
  | none => []
  | some d => d.slots

/-- The names bound in front of the WHERE clauses. -/
def headNames (form : LetForm) : List String :=
  form.inputs.map LetInput.name ++ form.inputs.flatMap aliasNames

structure FormScoped (form : LetForm) : Prop where
  wheres : ScopedWheres (headNames form) form.wheres
  results : ScopedArgs (headNames form ++ form.wheres.map Prod.fst) form.results

mutual
/-- No literal is too large. -/
def FiniteExpr (f64 : FloatLit → Option Rat) : Expr → Prop
  | .lit n => (f64 n).isSome
  | .var _ => True
  | .neg inner => FiniteExpr f64 inner
  | .bin _ l r => FiniteExpr f64 l ∧ FiniteExpr f64 r
  | .call _ args => FiniteArgs f64 args

def FiniteArgs (f64 : FloatLit → Option Rat) : List Expr → Prop
  | [] => True
  | e :: es => FiniteExpr f64 e ∧ FiniteArgs f64 es
end

/-- The input and the name of each alias, in order. -/
def aliasPairs (form : LetForm) : List (String × String) :=
  form.inputs.flatMap fun inp => (aliasNames inp).map (inp.name, ·)

structure FormFinite (f64 : FloatLit → Option Rat) (form : LetForm) : Prop where
  wheres : ∀ w ∈ form.wheres, FiniteExpr f64 w.2
  results : FiniteArgs f64 form.results

/-- What the code of a form needs to compute it. -/
structure FormComputable (f64 : FloatLit → Option Rat) (form : LetForm) : Prop
    extends FormFinite f64 form where
  /-- No alias has the name of an input that a slot is still read from. -/
  aliases : (aliasPairs form).Pairwise fun a b => a.2 ≠ b.1

section Machine
variable {V : Type} (I : Interpretation V)

def runWord (w : String) (stack : List (Cell V)) : Option (List (Cell V)) :=
  match w, stack with
  | "dup", c :: stack => some (c :: c :: stack)
  | "math:+", .val y :: .val x :: stack => (I.add x y).map fun v => .val v :: stack
  | "math:-", .val y :: .val x :: stack => (I.sub x y).map fun v => .val v :: stack
  | "math:*", .val y :: .val x :: stack => (I.mul x y).map fun v => .val v :: stack
  | "math:/", .val y :: .val x :: stack => (I.div x y).map fun v => .val v :: stack
  | "math:neg", .val x :: stack => (I.neg x).map fun v => .val v :: stack
  | "kernel:=", .val y :: .val x :: stack => (I.same x y).map fun b => .flag b :: stack
  | "math.order:<", .val y :: .val x :: stack => (I.less x y).map fun b => .flag b :: stack
  | "math.order:>", .val y :: .val x :: stack => (I.more x y).map fun b => .flag b :: stack
  | "math.order:<=", .val y :: .val x :: stack => (I.lessEq x y).map fun b => .flag b :: stack
  | "math.order:>=", .val y :: .val x :: stack => (I.moreEq x y).map fun b => .flag b :: stack
  | "kernel:not", .flag b :: stack => some (.flag (!b) :: stack)
  | "kernel:?", no :: yes :: .flag b :: stack => some ((if b then yes else no) :: stack)
  | w, stack =>
    (libraryWords.lookup w).bind fun (name, arity) =>
      (popVals arity stack).bind fun (args, stack) => (I.fn name args).map fun v => .val v :: stack

/-- The locals bound so far, the latest first, and the stack. -/
structure Frame (V : Type) where
  env : LetEnv V
  stack : List (Cell V)

def stepCode (f : Frame V) : Code → Option (Frame V)
  | .lit n => some { f with stack := .val (I.lit n) :: f.stack }
  | .truth b => some { f with stack := .val (I.truth b) :: f.stack }
  | .local_ x => (f.env.lookup x).map fun v => { f with stack := .val v :: f.stack }
  | .bind x =>
    match f.stack with
    | .val v :: stack => some ⟨(x, v) :: f.env, stack⟩
    | _ => none
  | .word w => (runWord I w f.stack).map fun stack => { f with stack := stack }
  | .accessor w =>
    match f.stack with
    | .val v :: stack => (I.getter w v).map fun slot => { f with stack := .val slot :: stack }
    | _ => none

def runCode (f : Frame V) (code : List Code) : Option (Frame V) := code.foldlM (stepCode I) f

/-- The quotation binds its inputs, runs, and is held to the height that it is called with. -/
def callCode (code : LetCode) (stack : List (Cell V)) : Option (List (Cell V)) := do
  let (inputs, below) ← popVals code.takes.length stack
  let done ← runCode I ⟨(code.params.zip inputs).reverse, below⟩ code.body
  if done.stack.length = below.length + code.leaves.length then some done.stack else none

/-- The code takes the inputs and leaves the values of the results, and nothing else. -/
def Computes (classSlots : Dict String (List String)) (form : LetForm) (code : LetCode) : Prop :=
  ∀ (inputs : List V) (stack : List (Cell V)), inputs.length = form.inputs.length →
    callCode I code (onTop inputs stack) =
      (formMeaning I classSlots form inputs).map fun results => onTop results stack

end Machine
end FactorForth.Semantics.LetForms
