import FactorForth.Correctness.LetMeaning

/-! What the code of a LET form reads, calls and leaves: it is closed and balanced for the forms with
nothing unknown in them. Nothing checks a form for that before its code runs. -/

namespace FactorForth.Correctness.LetForms
open FactorForth.Library FactorForth.Compiler.LetLang FactorForth.Semantics.LetForms
open FactorForth.Compiler (FloatLit lower factorUserName)

/-! The code alone. -/

/-- Every local is bound before it is read. -/
def ReadsBound (bound : List String) : List Code → Prop
  | [] => True
  | .local_ x :: code => x ∈ bound ∧ ReadsBound bound code
  | .bind x :: code => ReadsBound (x :: bound) code
  | _ :: code => ReadsBound bound code

/-- What a word takes off the stack and leaves on it. -/
def wordEffect : String → Option (Nat × Nat)
  | "dup" => some (1, 2)
  | "math:+" | "math:-" | "math:*" | "math:/" => some (2, 1)
  | "math:neg" => some (1, 1)
  | "kernel:=" | "math.order:<" | "math.order:>" | "math.order:<=" | "math.order:>=" => some (2, 1)
  | "kernel:not" => some (1, 1)
  | "kernel:?" => some (3, 1)
  | w => (libraryWords.lookup w).map fun p => (p.2, 1)

def codeEffect : Code → Option (Nat × Nat)
  | .lit _ | .truth _ | .local_ _ => some (0, 1)
  | .bind _ => some (1, 0)
  | .accessor _ => some (1, 1)
  | .word w => wordEffect w

/-- The height that a piece of code leaves, if it is high enough for it. -/
def stepHeight (height : Nat) (c : Code) : Option Nat :=
  (codeEffect c).bind fun (takes, leaves) =>
    if takes ≤ height then some (height - takes + leaves) else none

def heightAfter (height : Nat) (code : List Code) : Option Nat := code.foldlM stepHeight height

/-- The quotation takes and leaves what its call declares. -/
structure Balanced (code : LetCode) : Prop where
  takes : code.params.length = code.takes.length
  leaves : heightAfter 0 code.body = some code.leaves.length

/-! A run keeps to the heights. -/

section Heights
variable {V : Type} {I : Interpretation V}

theorem popVals_length {n : Nat} {stack : List (Cell V)} {vs : List V} {below : List (Cell V)}
    (h : popVals n stack = some (vs, below)) : stack.length = below.length + n := by
  induction n generalizing stack vs below with
  | zero =>
    obtain ⟨rfl, rfl⟩ := Prod.mk.inj (Option.some.inj h)
    rfl
  | succ n ih =>
    match stack, h with
    | .val v :: stack, h =>
      obtain ⟨⟨us, rest⟩, hRest, hPair⟩ := Option.map_eq_some_iff.mp h
      obtain ⟨-, rfl⟩ := Prod.mk.inj hPair
      exact congrArg Nat.succ (ih hRest)

theorem library_effect {w name : String} {arity : Nat} (h : libraryWords.lookup w = some (name, arity)) :
    wordEffect w = some (arity, 1) := by
  have hAll : ∀ p ∈ libraryWords, wordEffect p.1 = some (p.2.2, 1) := by decide +kernel
  exact hAll _ (Dict.mem_of_lookup h)

/-- A word that leaves one cell for those that it takes. -/
theorem height_of_map {α : Type} {takes : Nat} {below after : List (Cell V)} {r : Option α} {cell : α → Cell V}
    {w : String} {n : Nat} (hEffect : wordEffect w = some (takes, 1)) (hHeight : n = below.length + takes)
    (h : (r.map fun v => cell v :: below) = some after) :
    stepHeight n (.word w) = some after.length := by
  obtain ⟨v, -, rfl⟩ := Option.map_eq_some_iff.mp h
  rw [stepHeight, codeEffect, hEffect, hHeight]
  simp

theorem runWord_height {w : String} {stack after : List (Cell V)} (h : runWord I w stack = some after) :
    stepHeight stack.length (.word w) = some after.length := by
  unfold runWord at h
  split at h
  case h_1 | h_12 | h_13 =>
    obtain rfl := Option.some.inj h
    rfl
  case h_14 =>
    obtain ⟨⟨name, arity⟩, hWord, h⟩ := Option.bind_eq_some_iff.mp h
    obtain ⟨⟨vs, below⟩, hArgs, h⟩ := Option.bind_eq_some_iff.mp h
    exact height_of_map (library_effect hWord) (popVals_length hArgs) h
  all_goals exact height_of_map rfl rfl h

theorem stepCode_height {f g : Frame V} {c : Code} (h : stepCode I f c = some g) :
    stepHeight f.stack.length c = some g.stack.length := by
  obtain ⟨env, stack⟩ := f
  cases c with
  | lit | truth =>
    obtain rfl := Option.some.inj h
    rfl
  | local_ x =>
    obtain ⟨v, -, rfl⟩ := Option.map_eq_some_iff.mp h
    rfl
  | bind x =>
    match stack, h with
    | .val v :: stack, h =>
      obtain rfl := Option.some.inj h
      rfl
  | word w =>
    obtain ⟨after, hWord, rfl⟩ := Option.map_eq_some_iff.mp h
    exact runWord_height hWord
  | accessor w =>
    match stack, h with
    | .val v :: stack, h =>
      obtain ⟨slot, -, rfl⟩ := Option.map_eq_some_iff.mp h
      rfl

/-- A run that does not fail keeps to the heights of its code. -/
theorem runCode_height {f g : Frame V} {code : List Code} (h : runCode I f code = some g) :
    heightAfter f.stack.length code = some g.stack.length := by
  induction code generalizing f with
  | nil =>
    obtain rfl := Option.some.inj h
    rfl
  | cons c code ih =>
    obtain ⟨mid, hStep, hRest⟩ := Option.bind_eq_some_iff.mp h
    show (stepHeight f.stack.length c).bind _ = _
    rw [stepCode_height hStep]
    exact ih hRest

end Heights

/-! The form. -/

mutual
/-- Every variable is bound. -/
def Bound (bound : List String) : Expr → Prop
  | .lit _ => True
  | .var name => name ∈ bound
  | .neg inner => Bound bound inner
  | .bin _ l r => Bound bound l ∧ Bound bound r
  | .call _ args => BoundArgs bound args

def BoundArgs (bound : List String) : List Expr → Prop
  | [] => True
  | e :: es => Bound bound e ∧ BoundArgs bound es
end

mutual
/-- Every call is of a known function, with as many arguments as it takes. -/
def Called : Expr → Prop
  | .lit _ => True
  | .var _ => True
  | .neg inner => Called inner
  | .bin _ l r => Called l ∧ Called r
  | .call name args => functionArity name = some args.length ∧ CalledArgs args

def CalledArgs : List Expr → Prop
  | [] => True
  | e :: es => Called e ∧ CalledArgs es
end

structure FormCalled (form : LetForm) : Prop where
  wheres : ∀ w ∈ form.wheres, Called w.2
  results : CalledArgs form.results

mutual
theorem scoped_iff {bound : List String} : ∀ {e : Expr}, Scoped bound e ↔ Bound bound e ∧ Called e
  | .lit _ => (and_self_iff (a := True)).symm
  | .var _ => (and_iff_left trivial).symm
  | .neg inner => scoped_iff (e := inner)
  | .bin .. => (and_congr scoped_iff scoped_iff).trans and_and_and_comm
  | .call .. => (and_congr Iff.rfl scopedArgs_iff).trans and_left_comm

theorem scopedArgs_iff {bound : List String} :
    ∀ {es : List Expr}, ScopedArgs bound es ↔ BoundArgs bound es ∧ CalledArgs es
  | [] => (and_self_iff (a := True)).symm
  | _ :: _ => (and_congr scoped_iff scopedArgs_iff).trans and_and_and_comm
end

section Reads
variable {f64 : FloatLit → Option Rat}

theorem reads_words {bound : List String} (n : Nat) {w : String} {rest : List Code} :
    ReadsBound bound (List.replicate n (.word w) ++ rest) ↔ ReadsBound bound rest := by
  induction n with
  | zero => exact Iff.rfl
  | succ n ih => exact ih

theorem reads_binOp {bound : List String} (op : BinOp) {rest : List Code} :
    ReadsBound bound (factorBinOp op ++ rest) ↔ ReadsBound bound rest := by
  cases op <;> exact Iff.rfl

theorem mem_locals {bound : List String} {x : String} : factorLocal x ∈ bound.map factorLocal ↔ x ∈ bound :=
  List.mem_map_of_injective fun _ _ => factorLocal_inj.mp

mutual
/-- The code of an expression reads its variables. -/
theorem reads_emitExpr {bound : List String} {rest : List Code} :
    ∀ {e : Expr}, ReadsBound (bound.map factorLocal) (emitExpr f64 e ++ rest) ↔
      Bound bound e ∧ ReadsBound (bound.map factorLocal) rest
  | .lit n => by
    rw [emitExpr]
    split <;> exact (and_iff_right trivial).symm
  | .var name => and_congr mem_locals Iff.rfl
  | .neg inner => by
    rw [emitExpr, List.append_assoc, reads_emitExpr]
    exact Iff.rfl
  | .bin op l r => by
    rw [emitExpr]
    split
    · next k hk =>
      obtain ⟨-, n, rfl, -⟩ := multipliedOut_some hk
      rw [List.append_assoc, List.append_assoc, reads_emitExpr, reads_words, reads_words]
      exact and_congr (and_iff_left trivial).symm Iff.rfl
    · rw [List.append_assoc, List.append_assoc, reads_emitExpr, reads_emitExpr, reads_binOp]
      exact and_assoc.symm
  | .call name args => by
    rw [emitExpr, List.append_assoc, reads_emitArgs]
    exact Iff.rfl

theorem reads_emitArgs {bound : List String} {rest : List Code} :
    ∀ {es : List Expr}, ReadsBound (bound.map factorLocal) (emitArgs f64 es ++ rest) ↔
      BoundArgs bound es ∧ ReadsBound (bound.map factorLocal) rest
  | [] => (and_iff_right trivial).symm
  | e :: es => by
    rw [emitArgs, List.append_assoc, reads_emitExpr, reads_emitArgs]
    exact and_assoc.symm
end

/-- Aliases bind their names, as they are read from inputs. -/
theorem reads_aliases {bound : List String} {as : List Alias} {rest : List Code}
    (h : ∀ a ∈ as, a.input ∈ bound) :
    ReadsBound (bound.map factorLocal) (as.flatMap aliasCode ++ rest) ↔
      ReadsBound (((as.map Alias.name).reverse ++ bound).map factorLocal) rest := by
  induction as generalizing bound with
  | nil => exact Iff.rfl
  | cons a as ih =>
    obtain ⟨hFirst, hRest⟩ := List.forall_mem_cons.mp h
    have hNext := @ih (a.name :: bound) fun b hb => List.mem_cons_of_mem _ (hRest b hb)
    rw [List.map_cons, List.reverse_cons, List.append_assoc]
    exact (and_iff_right (mem_locals.mpr hFirst)).trans hNext

theorem reads_wheres {bound : List String} {wheres : List (String × Expr)} {rest : List Code}
    (hCalled : ∀ w ∈ wheres, Called w.2) :
    ReadsBound (bound.map factorLocal) (wheres.flatMap (whereCode f64) ++ rest) ↔
      ScopedWheres bound wheres ∧
        ReadsBound (((wheres.map Prod.fst).reverse ++ bound).map factorLocal) rest := by
  induction wheres generalizing bound with
  | nil => exact (and_iff_right trivial).symm
  | cons w wheres ih =>
    obtain ⟨hFirst, hRest⟩ := List.forall_mem_cons.mp hCalled
    rw [List.flatMap_cons, whereCode, List.append_assoc, List.append_assoc, reads_emitExpr]
    rw [List.map_cons, List.reverse_cons, List.append_assoc]
    have hScoped : Scoped bound w.2 ↔ Bound bound w.2 := scoped_iff.trans (and_iff_left hFirst)
    exact (and_congr hScoped.symm (@ih (w.1 :: bound) hRest)).trans and_assoc.symm

end Reads

/-! Values with nothing to them, on which no operation fails. -/

def blank : Interpretation Unit where
  lit _ := ()
  truth _ := ()
  add _ _ := some ()
  sub _ _ := some ()
  mul _ _ := some ()
  div _ _ := some ()
  neg _ := some ()
  same _ _ := some true
  less _ _ := some true
  more _ _ := some true
  lessEq _ _ := some true
  moreEq _ _ := some true
  fn _ _ := some ()
  getter _ _ := some ()

theorem blank_total : blank.Total where
  bin op _ _ := by cases op <;> exact ⟨_, rfl⟩
  neg _ := ⟨_, rfl⟩
  fn _ _ := ⟨_, rfl⟩

theorem blank_product (k : Nat) : blank.product () (k + 1) = some () := by
  induction k with
  | zero => rfl
  | succ k ih => rw [Interpretation.product, ih, Option.bind_some, blank]

theorem blank_powers {f64 : FloatLit → Option Rat} : blank.Powers f64 := by
  intro n k h x
  obtain ⟨q, -, hk⟩ := Option.bind_eq_some_iff.mp h
  obtain ⟨m, rfl⟩ : ∃ m, k = m + 1 := ⟨k - 1, (Nat.sub_add_cancel (smallPower_pos hk)).symm⟩
  exact (blank_product m).symm

theorem blank_aliases {as : List Alias} {env : LetEnv Unit} (h : ∀ a ∈ as, a.input ∈ env.map Prod.fst) :
    ∃ env', as.foldlM (fun env => bindAlias blank env env) env = some env' := by
  induction as generalizing env with
  | nil => exact ⟨env, rfl⟩
  | cons a as ih =>
    obtain ⟨hFirst, hRest⟩ := List.forall_mem_cons.mp h
    obtain ⟨object, hObject⟩ := lookup_bound hFirst
    obtain ⟨env', hEnv'⟩ := @ih ((a.name, ()) :: env) fun b hb => List.mem_cons_of_mem _ (hRest b hb)
    rw [List.foldlM_cons, bindAlias, hObject]
    exact ⟨env', hEnv'⟩

section Forms
variable {f64 : FloatLit → Option Rat} {classSlots : Dict String (List String)} {form : LetForm}
  {code : LetCode}

theorem wheres_called {bound : List String} {wheres : List (String × Expr)} (h : ScopedWheres bound wheres) :
    ∀ w ∈ wheres, Called w.2 := by
  induction wheres generalizing bound with
  | nil => exact nofun
  | cons w wheres ih => exact List.forall_mem_cons.mpr ⟨(scoped_iff.mp h.1).2, ih h.2⟩

theorem form_called (h : FormScoped form) : FormCalled form where
  wheres := wheres_called h.wheres
  results := (scopedArgs_iff.mp h.results).2

theorem readsBound_iff (hLower : lowerToFactor f64 form classSlots = .ok code) (hCalled : FormCalled form) :
    ReadsBound code.params code.body ↔ FormScoped form := by
  obtain ⟨as, hAs, rfl⟩ := ok_of_map hLower
  obtain ⟨-, hNames⟩ := formAliases_ok hAs
  have hParams : (form.inputs.map fun i => factorLocal i.name) =
      (form.inputs.map LetInput.name).map factorLocal := List.map_map.symm
  have hResults : form.results.flatMap (emitExpr f64) = emitArgs f64 form.results ++ [] := by
    rw [List.append_nil, emitArgs_flatMap]
  show ReadsBound (form.inputs.map fun i => factorLocal i.name) (_ ++ form.results.flatMap (emitExpr f64)) ↔ _
  rw [hParams, hResults, List.append_assoc, reads_aliases (alias_input hNames),
    reads_wheres hCalled.wheres, reads_emitArgs]
  have hHead : ∀ x, x ∈ headNames form ↔
      x ∈ (as.map Alias.name).reverse ++ form.inputs.map LetInput.name := by
    intro x
    rw [headNames, alias_names hNames, List.mem_append, List.mem_append, List.mem_reverse, or_comm]
  have hAll : ∀ x, x ∈ headNames form ++ form.wheres.map Prod.fst ↔ x ∈ (form.wheres.map Prod.fst).reverse ++
      ((as.map Alias.name).reverse ++ form.inputs.map LetInput.name) := by
    intro x
    rw [List.mem_append, List.mem_append, List.mem_reverse, hHead x, or_comm]
  constructor
  · rintro ⟨hWheres, hResults, -⟩
    refine ⟨scopedWheres_mono (fun x hx => (hHead x).mpr hx) hWheres, ?_⟩
    exact scopedArgs_mono (fun x hx => (hAll x).mpr hx) (scopedArgs_iff.mpr ⟨hResults, hCalled.results⟩)
  · intro h
    refine ⟨scopedWheres_mono (fun x hx => (hHead x).mp hx) h.wheres, ?_, trivial⟩
    exact (scopedArgs_iff.mp (scopedArgs_mono (fun x hx => (hAll x).mp hx) h.results)).1

/-- A run where nothing is undefined shows the heights. -/
theorem balanced_of_scoped (hLower : lowerToFactor f64 form classSlots = .ok code)
    (hCount : form.outputs.length = form.results.length) (hFinite : FormFinite f64 form)
    (hScoped : FormScoped form) : Balanced code := by
  obtain ⟨as, hAs, rfl⟩ := ok_of_map hLower
  obtain ⟨-, hNames⟩ := formAliases_ok hAs
  have hInputs : (List.replicate form.inputs.length ()).length = form.inputs.length := List.length_replicate
  have hBoundInputs : ∀ a ∈ as,
      a.input ∈ (inputEnv form (List.replicate form.inputs.length ())).map Prod.fst := by
    intro a ha
    rw [inputEnv_names hInputs]
    exact List.mem_reverse.mpr (alias_input hNames a ha)
  obtain ⟨env, hEnv⟩ := blank_aliases hBoundInputs
  have hBound := headNames_bound hNames hInputs (@aliases_names _ _ id _ _ _ hEnv)
  have hWheres := scopedWheres_mono hBound hScoped.wheres
  obtain ⟨env', hEnv'⟩ := wheres_total blank_total hWheres
  have hResults := scopedArgs_mono (resultNames_bound hBound hEnv') hScoped.results
  obtain ⟨results, hValues⟩ := evalArgs_total blank_total hResults
  have hRun : runCode blank ⟨locals (inputEnv form (List.replicate form.inputs.length ())), []⟩
      (as.flatMap aliasCode ++ form.wheres.flatMap (whereCode f64) ++ emitArgs f64 form.results) =
        some ⟨locals env', onTop results []⟩ := by
    rw [runCode_append, runCode_append, run_aliases, hEnv, Option.map_some, Option.bind_some,
      run_wheres blank_powers hWheres hFinite.wheres, hEnv', Option.map_some, Option.bind_some,
      run_emitArgs blank_powers hResults hFinite.results, hValues, Option.map_some]
  have hHeight := runCode_height hRun
  rw [emitArgs_flatMap] at hHeight
  refine ⟨rfl, hHeight.trans ?_⟩
  rw [onTop, List.append_nil, List.length_map, List.length_reverse, evalArgs_length hValues, List.length_map,
    hCount]

end Forms

/-- A form that compiles has bound all its locals and every call right, and takes and leaves what it
declares, if and only if in the source every variable is an input, an alias or an earlier WHERE name and
every call is of a known function with its number of arguments. -/
theorem let_closed {number : FloatLit → String} {f64 : FloatLit → Option Rat} {source : String}
    {form : LetForm} {classSlots : Dict String (List String)} {code : LetCode}
    (hParse : parse number source = .ok form) (hLower : lowerToFactor f64 form classSlots = .ok code)
    (hFinite : FormFinite f64 form) :
    (ReadsBound code.params code.body ∧ FormCalled form ∧ Balanced code) ↔ FormScoped form := by
  constructor
  · rintro ⟨hReads, hCalled, -⟩
    exact (readsBound_iff hLower hCalled).mp hReads
  · intro hScoped
    exact ⟨(readsBound_iff hLower (form_called hScoped)).mpr hScoped, (form_called hScoped),
      balanced_of_scoped hLower (parse_count hParse) hFinite hScoped⟩

/-- `LET (x) -> (y) = sqrt(r) WHERE r = x + e() END` -/
def rooted : LetForm where
  inputs := [⟨"x", none⟩]
  outputs := ["y"]
  results := [.call "sqrt" [.var "r"]]
  wheres := [("r", .bin .add (.var "x") (.call "e" []))]

def rootedCode : LetCode where
  params := ["nfl-x"]
  body := [.local_ "nfl-x", .word "math.constants:e", .word "math:+", .bind "nfl-r",
    .local_ "nfl-r", .word "math.functions:sqrt"]
  takes := ["nfl-x"]
  leaves := ["nfl-y"]

theorem rooted_closed :
    ReadsBound rootedCode.params rootedCode.body ∧ FormCalled rooted ∧ Balanced rootedCode := by
  have hParse : parse FloatLit.raw "LET (x) -> (y) = sqrt(r) WHERE r = x + e() END" = .ok rooted := by
    decide +kernel
  have hLower : lowerToFactor (fun _ => none) rooted [] = .ok rootedCode := by decide +kernel
  have hFinite : FormFinite (fun _ => none) rooted := by
    constructor <;> simp [rooted, FiniteExpr, FiniteArgs]
  have hSqrt : functionArity "sqrt" = some 1 := by decide +kernel
  have hE : functionArity "e" = some 0 := by decide +kernel
  have hScoped : FormScoped rooted := by
    constructor <;> simp [rooted, ScopedWheres, ScopedArgs, Scoped, headNames, hSqrt, hE]
  exact (let_closed hParse hLower hFinite).mpr hScoped

/-- `LET (x) -> (y) = z END` -/
def unbound : LetForm where
  inputs := [⟨"x", none⟩]
  outputs := ["y"]
  results := [.var "z"]
  wheres := []

def unboundCode : LetCode where
  params := ["nfl-x"]
  body := [.local_ "nfl-z"]
  takes := ["nfl-x"]
  leaves := ["nfl-y"]

/-- A variable that nothing binds is compiled to the reading of a local that nothing binds. -/
theorem unbound_compiled :
    parse FloatLit.raw "LET (x) -> (y) = z END" = .ok unbound ∧
    lowerToFactor (fun _ => none) unbound [] = .ok unboundCode ∧
    ¬(ReadsBound unboundCode.params unboundCode.body ∧ FormCalled unbound ∧ Balanced unboundCode) := by
  refine ⟨by decide +kernel, by decide +kernel, ?_⟩
  rintro ⟨⟨hRead, -⟩, -⟩
  simp [unboundCode] at hRead

end FactorForth.Correctness.LetForms
