import FactorForth.Compiler.EmitItems

/-! How Factor reads the names of the emitted code: the bindings in scope where a token stands, and
whether each token is read as the word or the local it was written for. -/

namespace FactorForth.Semantics
open FactorForth.Library FactorForth.Compiler

/-- What a binding was written for: a local of the source, an input that is pushed back, or an item
that is dropped. A mutable variable has a writer beside it. -/
inductive Binder where
  | local_ (name : String)
  | input (i : Nat)
  | discard
  | writer
deriving DecidableEq, Repr

/-- The bindings in scope, the innermost first. -/
abbrev Bindings : Type := List (String × Binder)

/-- A binding comes into scope. One written `x!` is a mutable variable, read as `x`, with the writer
`x!`. -/
def Bindings.enter (σ : Bindings) (b : String × Binder) : Bindings :=
  match b.1.toList.reverse with
  | '!' :: cs => (b.1, .writer) :: (String.ofList cs.reverse, b.2) :: σ
  | _ => b :: σ

def Bindings.enterAll (σ : Bindings) (bs : List (String × Binder)) : Bindings := bs.foldl Bindings.enter σ

/-- No binding is read by one of these names, so that each of them is a word. -/
def Bindings.free (σ : Bindings) (names : List String) : Bool :=
  names.all fun n => (σ.lookup n).isNone

/-- What a stack effect takes for its own syntax: such a name in a head binds nothing. -/
def isEffectSyntax (s : String) : Bool :=
  ["--", ")"].contains s || s.toList.take 2 == ['.', '.'] || s.toList.getLast? == some ':'

def headScope (bs : List (String × Binder)) : Bindings :=
  Bindings.enterAll [] (bs.filter fun b => !isEffectSyntax b.1)

section Reading
variable (floatText : FloatLit → String) (letNames : LetLang.LetForm → List String)

/-- The names that are looked up to read a token, apart from its quotation. A number is looked up as
well before it is a number. -/
def tokNames : Tok → List String
  | .int n => [toString n]
  | .float x => [floatText x]
  | .str _ => ["\""]
  | .report _ => ["\""]
  | .word t => [t.toFactorToken]
  | .symbol s => [s]
  | .name s => [s]
  | .prim p => [p.text]
  | .bind _ => [":>"]
  | .letForm form => letNames form
  | .quot _ => ["["]

/-- A reference to a local is read as that local, and every other token as a word. -/
def readsAs (σ : Bindings) : Tok → Bool
  | .word (.local_ n) => σ.lookup n == some (.local_ n)
  | t => σ.free (tokNames floatText letNames t)

mutual
def tokBinds : Tok → Nat
  | .bind _ => 1
  | .quot q => binds q
  | _ => 0

/-- How many bindings a code makes, in its quotations too. -/
def binds : List Tok → Nat
  | [] => 0
  | t :: ts => tokBinds t + binds ts
end

/-- The scope behind a token. `todo` is what the bindings to come were written for, each with the fresh
name it gets if it is a discard. -/
def scopeBehind (σ : Bindings) (todo : List (String × Binder)) : Tok → Bindings
  | .bind n =>
    match todo with
    | b :: _ => σ.enter (n.getD b.1, b.2)
    | [] => σ
  | _ => σ

def scopeAfter (σ : Bindings) (todo : List (String × Binder)) : List Tok → Bindings
  | [] => σ
  | t :: ts => scopeAfter (scopeBehind σ todo t) (todo.drop (tokBinds t)) ts

mutual
def tokHygienic (σ : Bindings) (todo : List (String × Binder)) : Tok → Bool
  | .quot q => σ.free ["["] && codeHygienic σ todo q && (scopeAfter σ todo q).free ["]"]
  | t => readsAs floatText letNames σ t

/-- Every token of the code is read as it was meant; a quotation has a scope of its own. -/
def codeHygienic (σ : Bindings) (todo : List (String × Binder)) : List Tok → Bool
  | [] => true
  | t :: ts => tokHygienic σ todo t &&
      codeHygienic (scopeBehind σ todo t) (todo.drop (tokBinds t)) ts
end

/-- The same for a code with its final `;`. -/
def closedHygienic (σ : Bindings) (todo : List (String × Binder)) (code : List Tok) : Bool :=
  codeHygienic floatText letNames σ todo code && (scopeAfter σ todo code).free [";"]

/-- The first tokens of a code push the inputs of its head back, each its own. -/
def pushesInputs (σ : Bindings) (code : List Tok) : Bool :=
  code.zipIdx.all fun p =>
    match p.1 with
    | .name s => σ.lookup s == some (.input p.2)
    | _ => false

/-- A definition form is read as it was meant. `named` is what its bindings were written for, in the
order in which they are written, and `pushed` how many inputs are pushed back. -/
def lineHygienic (named : List (String × Binder)) (pushed : Nat) : Line → Bool
  | .colon _ _ code _ => closedHygienic floatText letNames [] named code
  | .localsColon _ inputs _ code =>
    let σ := headScope (List.zipWith (fun s b => (s.getD b.1, b.2)) inputs named)
    pushesInputs σ (code.take pushed) &&
      closedHygienic floatText letNames σ (named.drop inputs.length) (code.drop pushed)
  | .method _ _ code => closedHygienic floatText letNames [] named code
  | _ => true

/-! Codes one behind the other. -/

theorem binds_append (xs ys : List Tok) : binds (xs ++ ys) = binds xs + binds ys := by
  induction xs with
  | nil => simp [binds]
  | cons x xs ih => rw [List.cons_append, binds, ih, binds, Nat.add_assoc]

theorem scopeAfter_append (σ : Bindings) (todo : List (String × Binder)) (xs ys : List Tok) :
    scopeAfter σ todo (xs ++ ys) = scopeAfter (scopeAfter σ todo xs) (todo.drop (binds xs)) ys := by
  induction xs generalizing σ todo with
  | nil => rfl
  | cons x xs ih =>
    rw [List.cons_append, scopeAfter, ih, scopeAfter, binds, List.drop_drop]

theorem codeHygienic_append (σ : Bindings) (todo : List (String × Binder)) (xs ys : List Tok) :
    codeHygienic floatText letNames σ todo (xs ++ ys) =
      (codeHygienic floatText letNames σ todo xs &&
        codeHygienic floatText letNames (scopeAfter σ todo xs) (todo.drop (binds xs)) ys) := by
  induction xs generalizing σ todo with
  | nil => rfl
  | cons x xs ih =>
    rw [List.cons_append, codeHygienic, ih, codeHygienic, scopeAfter, binds, List.drop_drop,
      Bool.and_assoc]

end Reading
end FactorForth.Semantics
