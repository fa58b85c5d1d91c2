import FactorForth.Compiler.Dictionary
import FactorForth.Library.Dict

/-! The code of a LET form: a quotation with the inputs as locals, the aliases, the WHERE bindings and
the results, and the effect that it is called with. -/

namespace FactorForth.Compiler.LetLang
open FactorForth.Library

/-- A piece of the quotation. -/
inductive Code where
  | lit (n : FloatLit)
  /-- `1.0` or `0.0` -/
  | truth (b : Bool)
  /-- A local, read. -/
  | local_ (x : String)
  /-- `:> x` -/
  | bind (x : String)
  | word (w : String)
  /-- The getter of a slot, a word of the program. -/
  | accessor (w : String)
deriving DecidableEq, Repr

/-- The `[| … | … ] call( … -- … )` of a form. -/
structure LetCode where
  params : List String
  body : List Code
  takes : List String
  leaves : List String
deriving DecidableEq

def factorLocal (name : String) : String := "nfl-" ++ name

/-- A comparison leaves a flag, which is turned into a number. -/
def asNumber : List Code := [.truth true, .truth false, .word "kernel:?"]

def factorBinOp : BinOp → List Code
  | .add => [.word "math:+"]
  | .sub => [.word "math:-"]
  | .mul => [.word "math:*"]
  | .div => [.word "math:/"]
  | .pow => [.word "math.functions:^"]
  | .eq => .word "kernel:=" :: asNumber
  | .ne => .word "kernel:=" :: .word "kernel:not" :: asNumber
  | .lt => .word "math.order:<" :: asNumber
  | .gt => .word "math.order:>" :: asNumber
  | .le => .word "math.order:<=" :: asNumber
  | .ge => .word "math.order:>=" :: asNumber

def factorCallTarget : String → String
  | "sqrt" => "math.functions:sqrt"
  | "abs" => "math:abs"
  | "min" => "math.order:min"
  | "max" => "math.order:max"
  | "floor" => "math.functions:floor"
  | "ceil" => "math.functions:ceiling"
  | "round" => "math.functions:round"
  | "trunc" => "math.functions:truncate"
  | "sin" => "math.functions:sin"
  | "cos" => "math.functions:cos"
  | "tan" => "math.functions:tan"
  | "asin" => "math.functions:asin"
  | "acos" => "math.functions:acos"
  | "atan" => "math.functions:atan"
  | "atan2" => "math.libm:fatan2"
  | "exp" => "math.functions:exp"
  | "log" => "math.functions:log"
  | "pow" => "math.functions:^"
  | "hypot" => "math.functions:hypot"
  | "pi" => "math.constants:pi"
  | "e" => "math.constants:e"
  | _ => "kernel:throw-LET-unknown-call"

/-- A whole number from 1 to 8. -/
def smallPower (n : Rat) : Option Nat := if n.den = 1 ∧ 1 ≤ n ∧ n ≤ 8 then some n.num.toNat else none

section
-- the number that a literal is read as; one that is too large is read as infinity
variable (f64 : FloatLit → Option Rat)

/-- The exponent of a power that is multiplied out. -/
def multipliedOut : BinOp → Expr → Option Nat
  | .pow, .lit n => (f64 n).bind smallPower
  | _, _ => none

mutual
def emitExpr : Expr → List Code
  -- infinity is printed as Rust prints it
  | .lit n => if (f64 n).isSome then [.lit n] else [.word "inf"]
  | .var name => [.local_ (factorLocal name)]
  | .neg inner => emitExpr inner ++ [.word "math:neg"]
  | .bin op l r =>
    match multipliedOut f64 op r with
    | some k =>
      emitExpr l ++ List.replicate (k - 1) (.word "dup") ++ List.replicate (k - 1) (.word "math:*")
    | none => emitExpr l ++ emitExpr r ++ factorBinOp op
  | .call name args => emitArgs args ++ [.word (factorCallTarget name)]

def emitArgs : List Expr → List Code
  | [] => []
  | e :: es => emitExpr e ++ emitArgs es
end

/-- An alias, with the input that it is read from and the getter of its slot. -/
structure Alias where
  input : String
  name : String
  getter : String

/-- The aliases of an input: the first ones of its class's slots, in order. -/
def inputAliases (classSlots : Dict String (List String)) (inp : LetInput) :
    Except String (List Alias) :=
  match inp.destructure with
  | none => .ok []
  | some d =>
    match classSlots.lookup (lower d.cls) with
    | none => .error ("class `" ++ d.cls ++ "` not found (in destructure of `" ++ inp.name ++ "`)")
    | some actual =>
      if actual.length < d.slots.length then
        .error ("`" ++ inp.name ++ ":" ++ d.cls ++ " as ...` lists " ++ toString d.slots.length ++
          " aliases but `" ++ d.cls ++ "` has " ++ toString actual.length ++ " slots")
      else
        .ok ((d.slots.zip actual).map fun (alias_, slot) =>
          ⟨inp.name, alias_, factorUserName (lower d.cls ++ ">" ++ slot)⟩)

def formAliases (classSlots : Dict String (List String)) (form : LetForm) :
    Except String (List Alias) :=
  (form.inputs.mapM (inputAliases classSlots)).map List.flatten

def aliasCode (a : Alias) : List Code :=
  [.local_ (factorLocal a.input), .accessor a.getter, .bind (factorLocal a.name)]

def whereCode (w : String × Expr) : List Code := emitExpr f64 w.2 ++ [.bind (factorLocal w.1)]

def lowerToFactor (form : LetForm) (classSlots : Dict String (List String)) : Except String LetCode :=
  (formAliases classSlots form).map fun aliases => {
    params := form.inputs.map fun i => factorLocal i.name
    body := aliases.flatMap aliasCode ++ form.wheres.flatMap (whereCode f64) ++
      form.results.flatMap (emitExpr f64)
    takes := form.inputs.map fun i => factorLocal i.name
    leaves := form.outputs.map factorLocal }

end
end FactorForth.Compiler.LetLang
