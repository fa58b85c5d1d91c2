import Mathlib.Algebra.Order.Ring.Int

/-! The abstract syntax of the front end: source positions, literals, expressions with their
structured control flow, and the items of a program. Counts and offsets that the code holds in
`u32` are natural numbers, and an IEEE double is carried as the literal text it is read from. -/

namespace FactorForth.Compiler

structure Pos where
  line : Nat
  col : Nat
  byteOffset : Nat
deriving DecidableEq, Repr

def Pos.start : Pos := ⟨1, 1, 0⟩

/-- Half-open source range; `stop` is the position after the last character. -/
structure Span where
  start : Pos
  stop : Pos
deriving DecidableEq, Repr

def Span.point (p : Pos) : Span := ⟨p, p⟩

def Span.display (s : Span) : String :=
  "line " ++ toString s.start.line ++ ", column " ++ toString s.start.col

def u32Max : Nat := 2 ^ 32 - 1

/-- Rust's `as u32` on a non-negative cell. -/
def asU32 (n : Int) : Nat := n.toNat % 2 ^ 32

def saturatingMul (a b : Nat) : Nat := min (a * b) u32Max

def saturatingAdd (a b : Nat) : Nat := min (a + b) u32Max

/-- ASCII lower case, the folding under which every dictionary lookup is made. -/
def lower (s : String) : String := String.ofList (s.toList.map Char.toLower)

def eqIgnoreAsciiCase (a b : String) : Bool := lower a == lower b

theorem toLower_of_not_upper {c : Char} (h : ¬ (c.val ≥ 'A'.val ∧ c.val ≤ 'Z'.val)) :
    c.toLower = c := dif_neg h

theorem toLower_val {c : Char} (h : c.val ≥ 'A'.val ∧ c.val ≤ 'Z'.val) :
    c.toLower.val = c.val + 32 := by
  unfold Char.toLower
  rw [dif_pos h]
  rfl

theorem toLower_of_upper {c : Char} (h : c.val ≥ 'A'.val ∧ c.val ≤ 'Z'.val) :
    'a'.val ≤ c.toLower.val ∧ c.toLower.val ≤ 'z'.val := by
  have hLow : 65 ≤ c.val := h.1
  have hHigh : c.val ≤ 90 := h.2
  show 97 ≤ c.toLower.val ∧ c.toLower.val ≤ 122
  rw [toLower_val h]
  grind

/-- A character that is none of the small letters is folded to by itself alone. -/
theorem toLower_eq_iff {c d : Char} (hd : ¬ ('a'.val ≤ d.val ∧ d.val ≤ 'z'.val))
    (hUpper : ¬ (d.val ≥ 'A'.val ∧ d.val ≤ 'Z'.val)) : c.toLower = d ↔ c = d := by
  constructor
  · intro h
    by_cases hc : c.val ≥ 'A'.val ∧ c.val ≤ 'Z'.val
    · have hRange := toLower_of_upper hc
      rw [h] at hRange
      exact absurd hRange hd
    · rw [toLower_of_not_upper hc] at h
      exact h
  · rintro rfl
    exact toLower_of_not_upper hUpper

theorem toLower_idem (c : Char) : c.toLower.toLower = c.toLower := by
  by_cases h : c.val ≥ 'A'.val ∧ c.val ≤ 'Z'.val
  · apply toLower_of_not_upper
    have hLow : 97 ≤ c.toLower.val := (toLower_of_upper h).1
    show ¬ (65 ≤ c.toLower.val ∧ c.toLower.val ≤ 90)
    grind
  · rw [toLower_of_not_upper h, toLower_of_not_upper h]

theorem lower_idem (s : String) : lower (lower s) = lower s := by
  unfold lower
  rw [String.toList_ofList, List.map_map]
  congr 1
  apply List.map_congr_left
  intro c _
  exact toLower_idem c

inductive StringKind where
  | dotQuote
  | sQuote
  | cQuote
  | sDollarQuote
deriving DecidableEq, Repr

structure FloatLit where
  raw : String
deriving DecidableEq, Repr

inductive Literal where
  | int (value : Int) (span : Span)
  | float (value : FloatLit) (span : Span)
  | str (value : String) (kind : StringKind) (span : Span)
deriving DecidableEq, Repr

structure LocalDecl where
  name : String
  nameSpan : Span
deriving DecidableEq, Repr

structure StackEffect where
  inputs : List String
  outputs : List String
  span : Span
deriving DecidableEq, Repr

/-! The LET sub-language, as the main syntax tree carries it. -/

namespace LetLang

inductive BinOp where
  | add | sub | mul | div | pow
  | eq | ne | lt | gt | le | ge
deriving DecidableEq, Repr

inductive Expr where
  | lit (n : FloatLit)
  | var (name : String)
  | bin (op : BinOp) (l r : Expr)
  | neg (e : Expr)
  | call (name : String) (args : List Expr)

structure DestructureClause where
  cls : String
  slots : List String
deriving DecidableEq, Repr

structure LetInput where
  name : String
  destructure : Option DestructureClause
deriving DecidableEq, Repr

structure LetForm where
  inputs : List LetInput
  outputs : List String
  results : List Expr
  wheres : List (String × Expr)

end LetLang

inductive LoopKind where
  | plus1
  | plusN
deriving DecidableEq, Repr

/-- One OF arm: the code before `OF`, the code between `OF` and `ENDOF`, and its span. -/
structure CaseArm (ε : Type) where
  matchExpr : List ε
  body : List ε
  span : Span

inductive Expr where
  | lit (l : Literal)
  | wordRef (name : String) (span : Span)
  | ifElse (thenBody : List Expr) (elseBody : Option (List Expr)) (span : Span)
  | beginUntil (body : List Expr) (span : Span)
  | beginWhileRepeat (pred body : List Expr) (span : Span)
  | beginAgain (body : List Expr) (span : Span)
  | doLoop (isQdo : Bool) (body : List Expr) (loopKind : LoopKind) (span : Span)
  | caseOf (arms : List (CaseArm Expr)) (default : Option (List Expr)) (span : Span)
  | tick (name : String) (span : Span)
  | toValue (name : String) (span : Span)
  | see (name : String) (span : Span)
  | letForm (form : LetLang.LetForm) (span : Span)
  | locals (names : List LocalDecl) (span : Span)

def Literal.span : Literal → Span
  | .int _ sp => sp
  | .float _ sp => sp
  | .str _ _ sp => sp

def Expr.span : Expr → Span
  | .lit l => l.span
  | .wordRef _ sp => sp
  | .ifElse _ _ sp => sp
  | .beginUntil _ sp => sp
  | .beginWhileRepeat _ _ sp => sp
  | .beginAgain _ sp => sp
  | .doLoop _ _ _ sp => sp
  | .caseOf _ _ sp => sp
  | .tick _ sp => sp
  | .toValue _ sp => sp
  | .see _ sp => sp
  | .letForm _ sp => sp
  | .locals _ sp => sp

structure Definition where
  name : String
  nameSpan : Span
  effect : Option StackEffect
  locals : List LocalDecl
  body : List Expr
  span : Span

structure VariableDef where
  name : String
  nameSpan : Span
  span : Span

inductive ConstFlavour where
  | cell
  | float
deriving DecidableEq, Repr

inductive ConstValue where
  | int (v : Int)
  | float (v : FloatLit)
  | computed (exprs : List Expr)

structure ConstantDef where
  name : String
  nameSpan : Span
  value : ConstValue
  span : Span
  flavour : ConstFlavour

structure ValueDef where
  name : String
  nameSpan : Span
  initial : List Expr
  span : Span

structure CreateDef where
  name : String
  nameSpan : Span
  allottedBytes : Nat
  span : Span

inductive CollectionKind where
  | array
  | farray
  | cbuffer
deriving DecidableEq, Repr

def CollectionKind.eltSize : CollectionKind → Nat
  | .array => 8
  | .farray => 8
  | .cbuffer => 1

structure CollectionDef where
  name : String
  nameSpan : Span
  kind : CollectionKind
  count : Nat
  span : Span
deriving DecidableEq, Repr

structure TemplateDef where
  name : String
  nameSpan : Span
  effect : Option StackEffect
  constructor : List Expr
  doesBody : List Expr
  span : Span

structure TemplateInstanceDef where
  name : String
  nameSpan : Span
  templateName : String
  allocatedBytes : Nat
  doesBody : List Expr
  span : Span

structure SlotDef where
  name : String
  nameSpan : Span

structure ClassDef where
  name : String
  nameSpan : Span
  superclass : Option String
  slots : List SlotDef
  span : Span

structure GenericDef where
  name : String
  nameSpan : Span
  effect : StackEffect
  span : Span

inductive MethodKind where
  | primary
  | before
  | after
deriving DecidableEq, Repr

structure MethodSpecializer where
  position : Nat
  paramName : String
  className : String
  at_ : Span

structure MethodDef where
  genericName : String
  genericNameSpan : Span
  specializers : List MethodSpecializer
  effect : StackEffect
  locals : List LocalDecl
  body : List Expr
  span : Span
  kind : MethodKind

structure RawFactorItem where
  source : String
  span : Span

inductive Item where
  | definition (d : Definition)
  | topLevel (exprs : List Expr) (span : Span)
  | variable (v : VariableDef)
  | constant (c : ConstantDef)
  | create (c : CreateDef)
  | collection (c : CollectionDef)
  | template (t : TemplateDef)
  | templateInstance (t : TemplateInstanceDef)
  | value (v : ValueDef)
  | class_ (c : ClassDef)
  | generic (g : GenericDef)
  | method (m : MethodDef)
  | rawFactor (r : RawFactorItem)
  | needs (path : String) (span : Span)

structure Program where
  items : List Item

end FactorForth.Compiler
