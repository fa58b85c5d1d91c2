import FactorForth.Correctness.LetMeaning
import Mathlib.Algebra.Order.Field.Rat

/-! When the code of a LET form computes it, over every exact arithmetic: an alias that takes the name of
an input hides it from the aliases behind it, and a literal that is too large has no number. -/

namespace FactorForth.Correctness.LetForms
open FactorForth.Library FactorForth.Compiler.LetLang FactorForth.Semantics.LetForms
open FactorForth.Compiler (FloatLit lower factorUserName)

/-! What a run that does not fail says of its code. -/

section Runs
variable {V : Type} {I : Interpretation V} {f64 : FloatLit → Option Rat}

theorem run_append {code more : List Code} {f g : Frame V} (h : runCode I f (code ++ more) = some g) :
    ∃ mid, runCode I f code = some mid ∧ runCode I mid more = some g := by
  rw [runCode_append] at h
  exact Option.bind_eq_some_iff.mp h

theorem run_flatMap {α : Type} {code : α → List Code} {as : List α} {f g : Frame V}
    (h : runCode I f (as.flatMap code) = some g) :
    ∀ a ∈ as, ∃ f' g', runCode I f' (code a) = some g' := by
  induction as generalizing f with
  | nil => exact nofun
  | cons a as ih =>
    obtain ⟨mid, hFirst, hRest⟩ := run_append h
    exact List.forall_mem_cons.mpr ⟨⟨f, mid, hFirst⟩, ih hRest⟩

mutual
theorem finite_of_run : ∀ {e : Expr} {f g : Frame V}, runCode I f (emitExpr f64 e) = some g → FiniteExpr f64 e
  | .lit n, f, g, h => by
    rw [emitExpr] at h
    split at h
    · assumption
    · rw [run_single] at h
      cases h
  | .var _, _, _, _ => trivial
  | .neg inner, _, _, h => by
    rw [emitExpr] at h
    obtain ⟨_, hInner, -⟩ := run_append h
    exact finite_of_run (e := inner) hInner
  | .bin op l r, _, _, h => by
    rw [emitExpr] at h
    split at h
    · next k hk =>
      obtain ⟨_, h, -⟩ := run_append h
      obtain ⟨_, hLeft, -⟩ := run_append h
      obtain ⟨rfl, n, rfl, hn⟩ := multipliedOut_some hk
      obtain ⟨q, hq, -⟩ := Option.bind_eq_some_iff.mp hn
      exact ⟨finite_of_run hLeft, Option.isSome_iff_exists.mpr ⟨q, hq⟩⟩
    · obtain ⟨_, h, -⟩ := run_append h
      obtain ⟨_, hLeft, hRight⟩ := run_append h
      exact ⟨finite_of_run hLeft, finite_of_run hRight⟩
  | .call _ args, _, _, h => by
    rw [emitExpr] at h
    obtain ⟨_, hArgs, -⟩ := run_append h
    exact finiteArgs_of_run hArgs

theorem finiteArgs_of_run :
    ∀ {es : List Expr} {f g : Frame V}, runCode I f (emitArgs f64 es) = some g → FiniteArgs f64 es
  | [], _, _, _ => trivial
  | e :: es, _, _, h => by
    rw [emitArgs] at h
    obtain ⟨_, hFirst, hRest⟩ := run_append h
    exact ⟨finite_of_run hFirst, finiteArgs_of_run hRest⟩
end

end Runs

/-! Arithmetic where an object is the number 1, with slots of 0. -/

def wholePower (x y : Rat) : Rat :=
  match smallPower y with
  | some k => x ^ k
  | none => 1

def flatFn (name : String) (args : List Rat) : Rat :=
  match name, args with
  | "pow", [x, y] => wholePower x y
  | _, _ => 0

def flat (f64 : FloatLit → Option Rat) : Interpretation Rat where
  lit n := (f64 n).getD 0
  truth b := if b then 1 else 0
  add x y := some (x + y)
  sub x y := some (x - y)
  mul x y := some (x * y)
  div x y := some (x / y)
  neg x := some (-x)
  same x y := some (decide (x = y))
  less x y := some (decide (x < y))
  more x y := some (decide (y < x))
  lessEq x y := some (decide (x ≤ y))
  moreEq x y := some (decide (y ≤ x))
  fn name args := some (flatFn name args)
  getter _ v := if v = 1 then some 0 else none

section Flat
variable {f64 : FloatLit → Option Rat}

theorem flat_product (x : Rat) (k : Nat) : (flat f64).product x (k + 1) = some (x ^ (k + 1)) := by
  induction k with
  | zero => exact congrArg some (pow_one x).symm
  | succ k ih =>
    rw [Interpretation.product, ih, pow_succ' x (k + 1)]
    rfl

theorem flat_powers : (flat f64).Powers f64 := by
  intro n k h x
  obtain ⟨q, hq, hk⟩ := Option.bind_eq_some_iff.mp h
  obtain ⟨m, rfl⟩ : ∃ m, k = m + 1 := ⟨k - 1, (Nat.sub_add_cancel (smallPower_pos hk)).symm⟩
  rw [flat_product]
  show some (wholePower x ((f64 n).getD 0)) = _
  rw [hq, wholePower, Option.getD_some, hk]

def flatExact : (flat f64).Exact f64 Rat where
  num := id
  lit n q h := by
    show (f64 n).getD 0 = _
    rw [h, Option.getD_some, Rat.cast_id, id]
  truth _ := rfl
  add _ _ := rfl
  sub _ _ := rfl
  mul _ _ := rfl
  div _ _ _ := rfl
  neg _ := rfl
  same _ _ := rfl
  less _ _ := rfl
  more _ _ := rfl
  lessEq _ _ := rfl
  moreEq _ _ := rfl
  pow := flat_powers

theorem flat_total : (flat f64).Total where
  bin op x y := by cases op <;> exact ⟨_, rfl⟩
  neg _ := ⟨_, rfl⟩
  fn _ _ := ⟨_, rfl⟩

theorem flat_aliases {start env : LetEnv Rat} {as : List Alias}
    (h : ∀ a ∈ as, start.lookup a.input = some 1) :
    ∃ env', as.foldlM (bindAlias (flat f64) start) env = some env' := by
  induction as generalizing env with
  | nil => exact ⟨env, rfl⟩
  | cons a as ih =>
    obtain ⟨hFirst, hRest⟩ := List.forall_mem_cons.mp h
    obtain ⟨env', hEnv'⟩ := @ih ((a.name, 0) :: env) hRest
    rw [List.foldlM_cons, bindAlias, hFirst]
    exact ⟨env', hEnv'⟩

end Flat

/-! Aliases that hide an input. -/

section Hiding
variable {f64 : FloatLit → Option Rat}

theorem flat_slot {start env env' : LetEnv Rat} {a : Alias}
    (h : bindAlias (flat f64) start env a = some env') :
    start.lookup a.input = some 1 ∧ env' = (a.name, 0) :: env := by
  obtain ⟨object, hObject, h⟩ := Option.bind_eq_some_iff.mp h
  obtain ⟨v, hSlot, rfl⟩ := Option.map_eq_some_iff.mp h
  have hGetter : (if object = 1 then some 0 else none) = some v := hSlot
  split at hGetter
  · next hOne =>
    obtain rfl := Option.some.inj hGetter
    exact ⟨hOne ▸ hObject, rfl⟩
  · cases hGetter

/-- A name that stands for a slot is read no further. -/
theorem slot_unread {env env' : LetEnv Rat} {as : List Alias} {x : String} (hSlot : env.lookup x = some 0)
    (h : as.foldlM (fun env => bindAlias (flat f64) env env) env = some env') :
    ∀ a ∈ as, x ≠ a.input := by
  induction as generalizing env with
  | nil => exact nofun
  | cons a as ih =>
    rw [List.foldlM_cons] at h
    obtain ⟨next, hNext, h⟩ := Option.bind_eq_some_iff.mp h
    obtain ⟨hObject, rfl⟩ := flat_slot hNext
    refine List.forall_mem_cons.mpr ⟨?_, ih ?_ h⟩
    · rintro rfl
      rw [hSlot] at hObject
      cases hObject
    · rw [Dict.lookup_cons]
      split
      · rfl
      · exact hSlot

theorem apart_of_run {env env' : LetEnv Rat} {as : List Alias}
    (h : as.foldlM (fun env => bindAlias (flat f64) env env) env = some env') :
    as.Pairwise fun a b => a.name ≠ b.input := by
  induction as generalizing env with
  | nil => exact .nil
  | cons a as ih =>
    rw [List.foldlM_cons] at h
    obtain ⟨next, hNext, h⟩ := Option.bind_eq_some_iff.mp h
    obtain ⟨-, rfl⟩ := flat_slot hNext
    have hSlot : List.lookup a.name ((a.name, 0) :: env) = some 0 := by rw [Dict.lookup_cons, if_pos rfl]
    exact List.pairwise_cons.mpr ⟨slot_unread hSlot h, ih h⟩

end Hiding

section Forms
variable {f64 : FloatLit → Option Rat} {classSlots : Dict String (List String)} {form : LetForm}
  {code : LetCode}

/-- Inputs that are all objects. -/
def objects (form : LetForm) : List Rat := List.replicate form.inputs.length 1

theorem objects_length : (objects form).length = form.inputs.length := List.length_replicate

theorem objects_lookup {x : String} (h : x ∈ form.inputs.map LetInput.name) :
    (inputEnv form (objects form)).lookup x = some 1 := by
  have hBound : x ∈ (inputEnv form (objects form)).map Prod.fst := by
    rw [inputEnv_names objects_length]
    exact List.mem_reverse.mpr h
  obtain ⟨v, hv⟩ := lookup_bound hBound
  have hMem := List.mem_reverse.mp (Dict.mem_of_lookup hv)
  rw [hv, List.eq_of_mem_replicate (List.of_mem_zip hMem).2]

theorem flat_meaning {as : List Alias} (hAs : formAliases classSlots form = .ok as)
    (hScoped : FormScoped form) :
    ∃ results, formMeaning (flat f64) classSlots form (objects form) = some results := by
  obtain ⟨rfl, hNames⟩ := formAliases_ok hAs
  have hObjects : ∀ a ∈ form.inputs.flatMap (slotAliases classSlots),
      (inputEnv form (objects form)).lookup a.input = some 1 := by
    intro a ha
    exact objects_lookup (alias_input hNames a ha)
  obtain ⟨env, hEnv⟩ := @flat_aliases f64 _ (inputEnv form (objects form)) _ hObjects
  have hBound := headNames_bound hNames objects_length (aliases_names hEnv)
  obtain ⟨env', hEnv'⟩ := wheres_total (@flat_total f64) (scopedWheres_mono hBound hScoped.wheres)
  obtain ⟨results, hResults⟩ := evalArgs_total (@flat_total f64)
    (scopedArgs_mono (resultNames_bound hBound hEnv') hScoped.results)
  refine ⟨results, ?_⟩
  rw [formMeaning, hEnv]
  show (form.wheres.foldlM (bindWhere (flat f64)) env).bind _ = _
  rw [hEnv']
  exact hResults

/-- A form whose code does not fail on objects is computed by it. -/
theorem computable_of_computes (hLower : lowerToFactor f64 form classSlots = .ok code)
    (hScoped : FormScoped form) (h : Computes (flat f64) classSlots form code) :
    FormComputable f64 form := by
  obtain ⟨as, hAs, -⟩ := ok_of_map hLower
  obtain ⟨results, hResults⟩ := @flat_meaning f64 _ _ _ hAs hScoped
  obtain ⟨rfl, hNames⟩ := formAliases_ok hAs
  have hRun := h (objects form) [] objects_length
  rw [callCode_inputs hLower objects_length, hResults] at hRun
  obtain ⟨done, hDone, -⟩ := Option.bind_eq_some_iff.mp hRun
  obtain ⟨f, hFront, hArgs⟩ := run_append hDone
  obtain ⟨g, hAliases, hWheres⟩ := run_append hFront
  rw [run_aliases] at hAliases
  obtain ⟨env, hEnv, -⟩ := Option.map_eq_some_iff.mp hAliases
  refine ⟨⟨?_, finiteArgs_of_run hArgs⟩, ?_⟩
  · intro w hw
    obtain ⟨f', g', hWhere⟩ := run_flatMap hWheres w hw
    obtain ⟨_, hExpr, -⟩ := run_append hWhere
    exact finite_of_run hExpr
  · rw [← hNames]
    exact List.pairwise_map.mpr (apart_of_run hEnv)

end Forms

/-- The code of a form with nothing unknown in it computes its formula, over every exact arithmetic, if
and only if no alias has the name of an input that a slot is still read from and no literal is too
large. -/
theorem let_computes {number : FloatLit → String} {f64 : FloatLit → Option Rat} {source : String}
    {form : LetForm} {classSlots : Dict String (List String)} {code : LetCode}
    (hParse : parse number source = .ok form) (hLower : lowerToFactor f64 form classSlots = .ok code)
    (hScoped : FormScoped form) :
    (∀ (V K : Type) [Field K] [LinearOrder K] [IsStrictOrderedRing K] (I : Interpretation V),
      I.Exact f64 K → Computes I classSlots form code) ↔ FormComputable f64 form := by
  constructor
  · intro h
    exact computable_of_computes hLower hScoped (h Rat Rat (flat f64) flatExact)
  · intro h V K _ _ _ I hExact
    exact computes_of_computable hExact.pow hLower (parse_count hParse) hScoped h

def pointSlots : Dict String (List String) := [("point", ["x", "y"])]

/-- `LET (p:point as x y, s) -> (d, m) = x**2 + z, max(x, s) WHERE z = y*y END` -/
def squares : LetForm where
  inputs := [⟨"p", some ⟨"point", ["x", "y"]⟩⟩, ⟨"s", none⟩]
  outputs := ["d", "m"]
  results := [.bin .add (.bin .pow (.var "x") (.lit ⟨"2"⟩)) (.var "z"), .call "max" [.var "x", .var "s"]]
  wheres := [("z", .bin .mul (.var "y") (.var "y"))]

def squaresCode : LetCode where
  params := ["nfl-p", "nfl-s"]
  body := [
    .local_ "nfl-p", .accessor "z-point>x", .bind "nfl-x",
    .local_ "nfl-p", .accessor "z-point>y", .bind "nfl-y",
    .local_ "nfl-y", .local_ "nfl-y", .word "math:*", .bind "nfl-z",
    .local_ "nfl-x", .word "dup", .word "math:*", .local_ "nfl-z", .word "math:+",
    .local_ "nfl-x", .local_ "nfl-s", .word "math.order:max"]
  takes := ["nfl-p", "nfl-s"]
  leaves := ["nfl-d", "nfl-m"]

theorem squares_scoped : FormScoped squares where
  wheres := by simp [squares, ScopedWheres, Scoped, headNames, aliasNames]
  results := by
    have hMax : functionArity "max" = some 2 := by decide +kernel
    simp [squares, ScopedArgs, Scoped, headNames, aliasNames, hMax]

/-- The number of the literal 2. -/
def two (n : FloatLit) : Option Rat := if n.raw = "2" then some 2 else none

theorem squares_computable : FormComputable two squares where
  wheres := by simp [squares, FiniteExpr]
  results := by simp [squares, FiniteExpr, FiniteArgs, two]
  aliases := by simp [squares, aliasPairs, aliasNames]

theorem squares_computed : FormComputable two squares ∧
    ∀ (V K : Type) [Field K] [LinearOrder K] [IsStrictOrderedRing K] (I : Interpretation V),
      I.Exact two K → Computes I pointSlots squares squaresCode := by
  have hParse : parse FloatLit.raw
      "LET (p:point as x y, s) -> (d, m) = x**2 + z, max(x, s) WHERE z = y*y END" = .ok squares := by
    decide +kernel
  have hLower : lowerToFactor two squares pointSlots = .ok squaresCode := by decide +kernel
  exact ⟨squares_computable, (let_computes hParse hLower squares_scoped).mpr squares_computable⟩

/-- `LET (x:point as x y) -> (d) = x + y END` -/
def hidden : LetForm where
  inputs := [⟨"x", some ⟨"point", ["x", "y"]⟩⟩]
  outputs := ["d"]
  results := [.bin .add (.var "x") (.var "y")]
  wheres := []

def hiddenCode : LetCode where
  params := ["nfl-x"]
  body := [
    .local_ "nfl-x", .accessor "z-point>x", .bind "nfl-x",
    .local_ "nfl-x", .accessor "z-point>y", .bind "nfl-y",
    .local_ "nfl-x", .local_ "nfl-y", .word "math:+"]
  takes := ["nfl-x"]
  leaves := ["nfl-d"]

/-- The getter of the second slot is called on the first slot, which is no object. -/
theorem input_hidden :
    parse FloatLit.raw "LET (x:point as x y) -> (d) = x + y END" = .ok hidden ∧
    lowerToFactor two hidden pointSlots = .ok hiddenCode ∧ FormScoped hidden ∧
    formMeaning (flat two) pointSlots hidden [1] = some [0] ∧
    callCode (flat two) hiddenCode (onTop [1] []) = none ∧
    ¬ ∀ (V K : Type) [Field K] [LinearOrder K] [IsStrictOrderedRing K] (I : Interpretation V),
      I.Exact two K → Computes I pointSlots hidden hiddenCode := by
  have hMeaning : formMeaning (flat two) pointSlots hidden [1] = some [0] := by decide +kernel
  have hRun : callCode (flat two) hiddenCode (onTop [1] []) = none := by decide +kernel
  refine ⟨by decide +kernel, by decide +kernel, ?_, hMeaning, hRun, ?_⟩
  · constructor
    · trivial
    · simp [hidden, ScopedArgs, Scoped, headNames, aliasNames]
  · intro h
    have hComputes := h Rat Rat (flat two) flatExact [1] [] rfl
    rw [hRun, hMeaning] at hComputes
    cases hComputes

end FactorForth.Correctness.LetForms
