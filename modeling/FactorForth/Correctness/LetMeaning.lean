import FactorForth.Semantics.LetMachine
import FactorForth.Correctness.LetSentences
import Mathlib.Algebra.Order.Field.Rat

/-! The code of a LET form computes its formula: each piece leaves the value of its expression on top of
the stack, and the whole leaves the results, as long as no alias takes the name of an input that is still
to be read. -/

namespace FactorForth.Correctness.LetForms
open FactorForth.Library FactorForth.Compiler.LetLang FactorForth.Semantics.LetForms
open FactorForth.Compiler (FloatLit lower factorUserName)

/-! Locals. -/

section Locals
variable {V : Type}

/-- The locals of the names bound so far. -/
def locals (env : LetEnv V) : LetEnv V := env.map fun p => (factorLocal p.1, p.2)

theorem factorLocal_inj {a b : String} : factorLocal a = factorLocal b ↔ a = b := by
  constructor
  · intro h
    have hChars := congrArg String.toList h
    rw [factorLocal, factorLocal, String.toList_append, String.toList_append] at hChars
    exact String.toList_inj.mp (List.append_cancel_left hChars)
  · exact congrArg factorLocal

theorem lookup_locals (env : LetEnv V) (x : String) :
    (locals env).lookup (factorLocal x) = env.lookup x := by
  induction env with
  | nil => rfl
  | cons p env ih =>
    show List.lookup (factorLocal x) ((factorLocal p.1, p.2) :: locals env) = List.lookup x (p :: env)
    rw [Dict.lookup_cons, ← Prod.mk.eta (p := p), Dict.lookup_cons, ih]
    by_cases h : p.1 = x
    · rw [if_pos h, if_pos (congrArg factorLocal h)]
    · rw [if_neg h, if_neg fun hLocal => h (factorLocal_inj.mp hLocal)]

theorem locals_reverse (env : LetEnv V) : locals env.reverse = (locals env).reverse :=
  List.map_reverse

end Locals

/-! Pieces of code. -/

section Pieces
variable {V : Type} {I : Interpretation V}

theorem runCode_append (f : Frame V) (code more : List Code) :
    runCode I f (code ++ more) = (runCode I f code).bind fun f => runCode I f more :=
  List.foldlM_append

theorem popVals_vals (vs : List V) (stack : List (Cell V)) :
    popVals vs.length (vs.map .val ++ stack) = some (vs.reverse, stack) := by
  induction vs with
  | nil => rfl
  | cons v vs ih =>
    show (popVals vs.length (vs.map .val ++ stack)).map _ = _
    rw [ih, List.reverse_cons]
    rfl

theorem popVals_onTop (vs : List V) (stack : List (Cell V)) :
    popVals vs.length (onTop vs stack) = some (vs, stack) := by
  have hReverse := popVals_vals vs.reverse stack
  rwa [List.length_reverse, List.reverse_reverse] at hReverse

theorem run_nil (f : Frame V) : runCode I f [] = some f := rfl

theorem run_word (env : LetEnv V) (stack : List (Cell V)) (w : String) (code : List Code) :
    runCode I ⟨env, stack⟩ (.word w :: code) =
      (runWord I w stack).bind fun stack => runCode I ⟨env, stack⟩ code := by
  show (stepCode I ⟨env, stack⟩ (.word w)).bind _ = _
  rw [stepCode, Option.bind_map]
  rfl

theorem run_single (f : Frame V) (c : Code) : runCode I f [c] = stepCode I f c := by
  show (stepCode I f c).bind some = _
  cases stepCode I f c <;> rfl

theorem run_one (env : LetEnv V) (stack : List (Cell V)) (w : String) :
    runCode I ⟨env, stack⟩ [.word w] = (runWord I w stack).map fun stack => ⟨env, stack⟩ := by
  rw [run_single]
  rfl

theorem run_asNumber (b : Bool) (env : LetEnv V) (stack : List (Cell V)) :
    runCode I ⟨env, .flag b :: stack⟩ asNumber = some ⟨env, .val (I.truth b) :: stack⟩ := by
  cases b <;> rfl

/-- A comparison leaves its flag as a number. -/
theorem run_comparison {w : String} {stack : List (Cell V)} {flag : Option Bool} {below : List (Cell V)}
    (h : runWord I w stack = flag.map fun b => .flag b :: below) (env : LetEnv V) :
    runCode I ⟨env, stack⟩ (.word w :: asNumber) =
      (flag.map I.truth).map fun v => ⟨env, .val v :: below⟩ := by
  rw [run_word, h]
  cases flag with
  | none => rfl
  | some b => exact run_asNumber b env below

theorem run_arithmetic {w : String} {stack : List (Cell V)} {result : Option V} {below : List (Cell V)}
    (h : runWord I w stack = result.map fun v => .val v :: below) (env : LetEnv V) :
    runCode I ⟨env, stack⟩ [.word w] = result.map fun v => ⟨env, .val v :: below⟩ := by
  rw [run_one, h, Option.map_map]
  rfl

theorem run_binOp (op : BinOp) (x y : V) (env : LetEnv V) (stack : List (Cell V)) :
    runCode I ⟨env, .val y :: .val x :: stack⟩ (factorBinOp op) =
      (I.binMeaning op x y).map fun v => ⟨env, .val v :: stack⟩ := by
  cases op with
  | add | sub | mul | div | pow => exact run_arithmetic rfl env
  | eq | lt | gt | le | ge => exact run_comparison rfl env
  | ne =>
    have hSame : runWord I "kernel:=" (.val y :: .val x :: stack) =
      (I.same x y).map fun b => .flag b :: stack := rfl
    show runCode I _ (.word "kernel:=" :: .word "kernel:not" :: asNumber) =
      ((I.same x y).map fun b => I.truth !b).map _
    rw [run_word, hSame]
    cases I.same x y with
    | none => rfl
    | some b => exact run_asNumber (!b) env stack

/-! Powers. -/

theorem run_dups (m : Nat) (x : V) (env : LetEnv V) (stack : List (Cell V)) :
    runCode I ⟨env, .val x :: stack⟩ (List.replicate m (.word "dup")) =
      some ⟨env, .val x :: (List.replicate m (.val x) ++ stack)⟩ := by
  induction m generalizing stack with
  | zero => rfl
  | succ m ih =>
    have hDup : runWord I "dup" (.val x :: stack) = some (.val x :: .val x :: stack) := rfl
    rw [List.replicate_succ, run_word, hDup, Option.bind_some, ih, List.replicate_succ',
      List.append_assoc]
    rfl

theorem run_muls (m : Nat) (x : V) (env : LetEnv V) (stack : List (Cell V)) :
    runCode I ⟨env, .val x :: (List.replicate m (.val x) ++ stack)⟩
        (List.replicate m (.word "math:*")) =
      (I.product x (m + 1)).map fun v => ⟨env, .val v :: stack⟩ := by
  induction m generalizing stack with
  | zero => rfl
  | succ m ih =>
    rw [List.replicate_succ', List.replicate_succ', List.append_assoc, runCode_append]
    rw [List.cons_append, List.nil_append, ih, Interpretation.product]
    cases I.product x (m + 1) with
    | none => rfl
    | some p =>
      show runCode I ⟨env, .val p :: .val x :: stack⟩ _ = _
      exact run_arithmetic rfl env

/-- A power that is multiplied out. -/
theorem run_product {k : Nat} (hk : 1 ≤ k) (x : V) (env : LetEnv V) (stack : List (Cell V)) :
    runCode I ⟨env, .val x :: stack⟩ (List.replicate (k - 1) (.word "dup") ++
        List.replicate (k - 1) (.word "math:*")) =
      (I.product x k).map fun v => ⟨env, .val v :: stack⟩ := by
  obtain ⟨m, rfl⟩ : ∃ m, k = m + 1 := ⟨k - 1, (Nat.sub_add_cancel hk).symm⟩
  rw [Nat.add_sub_cancel, runCode_append, run_dups, Option.bind_some, run_muls]

/-! Calls. -/

theorem run_library : ∀ p ∈ libraryWords, ∀ stack : List (Cell V), runWord I p.1 stack =
    (popVals p.2.2 stack).bind fun q => (I.fn p.2.1 q.1).map fun v => .val v :: q.2 := by
  rw [libraryWords]
  simp only [List.forall_mem_cons]
  refine ⟨?_, ?_, ?_, ?_, ?_, ?_, ?_, ?_, ?_, ?_, ?_, ?_, ?_, ?_, ?_, ?_, ?_, ?_, ?_, ?_, ?_, nofun⟩ <;>
    intro stack <;> rfl

theorem callTarget_library : ∀ p ∈ libraryWords, factorCallTarget p.2.1 = p.1 := by decide +kernel

/-- The call of a library function. -/
theorem run_call {name : String} {args : List V} (h : functionArity name = some args.length)
    (env : LetEnv V) (stack : List (Cell V)) :
    runCode I ⟨env, onTop args stack⟩ [.word (factorCallTarget name)] =
      (I.fn name args).map fun v => ⟨env, .val v :: stack⟩ := by
  obtain ⟨p, hp, hName⟩ := List.mem_map.mp (Dict.mem_of_lookup h)
  have hTarget := callTarget_library p hp
  have hRun := run_library p hp (I := I) (onTop args stack)
  rw [hName] at hTarget hRun
  apply run_arithmetic
  rw [hTarget, hRun, popVals_onTop, Option.bind_some]

end Pieces

/-! Expressions. -/

theorem evalArgs_length {V : Type} {I : Interpretation V} {env : LetEnv V} {es : List Expr} {vs : List V}
    (h : evalArgs I env es = some vs) : vs.length = es.length := by
  induction es generalizing vs with
  | nil =>
    obtain rfl := Option.some.inj h
    rfl
  | cons e es ih =>
    obtain ⟨v, -, hRest⟩ := Option.bind_eq_some_iff.mp h
    obtain ⟨us, hUs, rfl⟩ := Option.map_eq_some_iff.mp hRest
    exact congrArg Nat.succ (ih hUs)

theorem multipliedOut_some {f64 : FloatLit → Option Rat} {op : BinOp} {e : Expr} {k : Nat}
    (h : multipliedOut f64 op e = some k) :
    op = .pow ∧ ∃ n, e = .lit n ∧ (f64 n).bind smallPower = some k := by
  unfold multipliedOut at h
  split at h
  · exact ⟨rfl, _, rfl, h⟩
  · cases h

theorem smallPower_pos {n : Rat} {k : Nat} (h : smallPower n = some k) : 1 ≤ k := by
  unfold smallPower at h
  split at h
  · rename_i hSmall
    obtain rfl := Option.some.inj h
    have hNum : 0 < n.num := Rat.num_pos.mpr (lt_of_lt_of_le one_pos hSmall.2.1)
    exact Int.pos_iff_toNat_pos.mp hNum
  · cases h

section Expressions
variable {V : Type} {I : Interpretation V} {f64 : FloatLit → Option Rat}

mutual
/-- The code of an expression leaves its value on what is on the stack. -/
theorem run_emitExpr (hPow : I.Powers f64) {env : LetEnv V} :
    ∀ {e : Expr}, Scoped (env.map Prod.fst) e → FiniteExpr f64 e → ∀ stack : List (Cell V),
      runCode I ⟨locals env, stack⟩ (emitExpr f64 e) =
        (evalExpr I env e).map fun v => ⟨locals env, .val v :: stack⟩
  | .lit n, _, hFinite, stack => by
    have hNumber : (f64 n).isSome = true := hFinite
    rw [emitExpr, if_pos hNumber]
    rfl
  | .var name, _, _, stack => by
    rw [emitExpr, run_single, stepCode, lookup_locals]
    rfl
  | .neg inner, hScoped, hFinite, stack => by
    rw [emitExpr, runCode_append, run_emitExpr hPow (e := inner) hScoped hFinite, evalExpr]
    cases evalExpr I env inner with
    | none => rfl
    | some x => exact run_arithmetic rfl _
  | .bin op l r, hScoped, hFinite, stack => by
    have hLeft := run_emitExpr hPow hScoped.1 hFinite.1 stack
    rw [emitExpr, evalExpr]
    split
    · next k hk =>
      obtain ⟨rfl, n, rfl, hn⟩ := multipliedOut_some hk
      obtain ⟨q, -, hSmall⟩ := Option.bind_eq_some_iff.mp hn
      rw [List.append_assoc, runCode_append, hLeft]
      cases evalExpr I env l with
      | none => rfl
      | some x =>
        show _ = (I.pow x (I.lit n)).map _
        rw [hPow n k hn x]
        exact run_product (smallPower_pos hSmall) x _ _
    · rw [runCode_append, runCode_append, hLeft]
      cases evalExpr I env l with
      | none => rfl
      | some x =>
        show ((runCode I ⟨locals env, .val x :: stack⟩ (emitExpr f64 r)).bind _) = _
        rw [run_emitExpr hPow hScoped.2 hFinite.2]
        cases evalExpr I env r with
        | none => rfl
        | some y => exact run_binOp op x y _ _
  | .call name args, hScoped, hFinite, stack => by
    rw [emitExpr, runCode_append, run_emitArgs hPow hScoped.2 hFinite, evalExpr]
    cases hArgs : evalArgs I env args with
    | none => rfl
    | some vs =>
      have hArity : functionArity name = some vs.length := by
        rw [evalArgs_length hArgs]
        exact hScoped.1
      exact run_call hArity _ _

/-- The code of arguments leaves their values, the last on top. -/
theorem run_emitArgs (hPow : I.Powers f64) {env : LetEnv V} :
    ∀ {es : List Expr}, ScopedArgs (env.map Prod.fst) es → FiniteArgs f64 es →
      ∀ stack : List (Cell V), runCode I ⟨locals env, stack⟩ (emitArgs f64 es) =
        (evalArgs I env es).map fun vs => ⟨locals env, onTop vs stack⟩
  | [], _, _, stack => rfl
  | e :: es, hScoped, hFinite, stack => by
    rw [emitArgs, runCode_append, run_emitExpr hPow hScoped.1 hFinite.1, evalArgs]
    cases evalExpr I env e with
    | none => rfl
    | some v =>
      show runCode I ⟨locals env, .val v :: stack⟩ (emitArgs f64 es) = _
      rw [run_emitArgs hPow hScoped.2 hFinite.2, Option.bind_some, Option.map_map]
      cases evalArgs I env es with
      | none => rfl
      | some vs => simp [onTop]
end

end Expressions

/-! Names. -/

mutual
theorem scoped_mono {bound bound' : List String} (hSub : bound ⊆ bound') :
    ∀ {e : Expr}, Scoped bound e → Scoped bound' e
  | .lit _, _ => trivial
  | .var _, h => hSub h
  | .neg inner, h => scoped_mono hSub (e := inner) h
  | .bin _ _ _, h => ⟨scoped_mono hSub h.1, scoped_mono hSub h.2⟩
  | .call _ _, h => ⟨h.1, scopedArgs_mono hSub h.2⟩

theorem scopedArgs_mono {bound bound' : List String} (hSub : bound ⊆ bound') :
    ∀ {es : List Expr}, ScopedArgs bound es → ScopedArgs bound' es
  | [], _ => trivial
  | _ :: _, h => ⟨scoped_mono hSub h.1, scopedArgs_mono hSub h.2⟩
end

theorem scopedWheres_mono {bound bound' : List String} (hSub : bound ⊆ bound')
    {wheres : List (String × Expr)} (h : ScopedWheres bound wheres) : ScopedWheres bound' wheres := by
  induction wheres generalizing bound bound' with
  | nil => exact trivial
  | cons w wheres ih => exact ⟨scoped_mono hSub h.1, ih (List.cons_subset_cons _ hSub) h.2⟩

section Names
variable {V : Type} {I : Interpretation V}

theorem inputEnv_names {form : LetForm} {inputs : List V} (h : inputs.length = form.inputs.length) :
    (inputEnv form inputs).map Prod.fst = (form.inputs.map LetInput.name).reverse := by
  rw [inputEnv, List.map_reverse, List.map_fst_zip]
  rw [List.length_map, h]

theorem bindAlias_names {start env env' : LetEnv V} {a : Alias} (h : bindAlias I start env a = some env') :
    env'.map Prod.fst = a.name :: env.map Prod.fst := by
  obtain ⟨object, -, h⟩ := Option.bind_eq_some_iff.mp h
  obtain ⟨v, -, rfl⟩ := Option.map_eq_some_iff.mp h
  rfl

theorem bindWhere_names {env env' : LetEnv V} {w : String × Expr} (h : bindWhere I env w = some env') :
    env'.map Prod.fst = w.1 :: env.map Prod.fst := by
  obtain ⟨v, -, rfl⟩ := Option.map_eq_some_iff.mp h
  rfl

/-- Bindings one after the other leave their names in front. -/
theorem foldlM_names {α : Type} (bind : LetEnv V → α → Option (LetEnv V)) (name : α → String)
    (hBind : ∀ env env' a, bind env a = some env' → env'.map Prod.fst = name a :: env.map Prod.fst)
    {as : List α} {env env' : LetEnv V} (h : as.foldlM bind env = some env') :
    env'.map Prod.fst = (as.map name).reverse ++ env.map Prod.fst := by
  induction as generalizing env with
  | nil =>
    obtain rfl := Option.some.inj h
    rfl
  | cons a as ih =>
    rw [List.foldlM_cons] at h
    obtain ⟨next, hNext, h⟩ := Option.bind_eq_some_iff.mp h
    rw [ih h, hBind _ _ _ hNext]
    simp

theorem aliases_names {start : LetEnv V → LetEnv V} {as : List Alias} {env env' : LetEnv V}
    (h : as.foldlM (fun env => bindAlias I (start env) env) env = some env') :
    env'.map Prod.fst = (as.map Alias.name).reverse ++ env.map Prod.fst :=
  foldlM_names _ Alias.name (fun _ _ _ => bindAlias_names) h

end Names

/-! Formulas that have a value. -/

theorem lookup_bound {V : Type} {env : LetEnv V} {x : String} (h : x ∈ env.map Prod.fst) :
    ∃ v, env.lookup x = some v := by
  induction env with
  | nil => cases h
  | cons p env ih =>
    obtain ⟨y, w⟩ := p
    rw [Dict.lookup_cons]
    by_cases hy : y = x
    · exact ⟨w, if_pos hy⟩
    · rw [if_neg hy]
      exact ih ((List.mem_cons.mp h).resolve_left (Ne.symm hy))

section Total
variable {V : Type} {I : Interpretation V}

mutual
theorem evalExpr_total (hTotal : I.Total) {env : LetEnv V} :
    ∀ {e : Expr}, Scoped (env.map Prod.fst) e → ∃ v, evalExpr I env e = some v
  | .lit _, _ => ⟨_, rfl⟩
  | .var _, h => lookup_bound h
  | .neg inner, h => by
    obtain ⟨x, hx⟩ := evalExpr_total hTotal (e := inner) h
    rw [evalExpr, hx]
    exact hTotal.neg x
  | .bin op l r, h => by
    obtain ⟨x, hx⟩ := evalExpr_total hTotal h.1
    obtain ⟨y, hy⟩ := evalExpr_total hTotal h.2
    rw [evalExpr, hx, hy]
    exact hTotal.bin op x y
  | .call name args, h => by
    obtain ⟨vs, hVs⟩ := evalArgs_total hTotal h.2
    rw [evalExpr, hVs]
    exact hTotal.fn name vs

theorem evalArgs_total (hTotal : I.Total) {env : LetEnv V} :
    ∀ {es : List Expr}, ScopedArgs (env.map Prod.fst) es → ∃ vs, evalArgs I env es = some vs
  | [], _ => ⟨_, rfl⟩
  | e :: es, h => by
    obtain ⟨v, hv⟩ := evalExpr_total hTotal h.1
    obtain ⟨vs, hVs⟩ := evalArgs_total hTotal h.2
    rw [evalArgs, hv, hVs]
    exact ⟨_, rfl⟩
end

theorem wheres_total (hTotal : I.Total) {wheres : List (String × Expr)} {env : LetEnv V}
    (h : ScopedWheres (env.map Prod.fst) wheres) : ∃ env', wheres.foldlM (bindWhere I) env = some env' := by
  induction wheres generalizing env with
  | nil => exact ⟨env, rfl⟩
  | cons w wheres ih =>
    obtain ⟨v, hv⟩ := evalExpr_total hTotal h.1
    obtain ⟨env', hRest⟩ := @ih ((w.1, v) :: env) h.2
    rw [List.foldlM_cons, bindWhere, hv]
    exact ⟨env', hRest⟩

end Total

/-! Aliases. -/

/-- The aliases of an input stand for the slots at their positions. -/
theorem inputAliases_ok {classSlots : Dict String (List String)} {inp : LetInput} {as : List Alias}
    (h : inputAliases classSlots inp = .ok as) : as = slotAliases classSlots inp ∧
      as.map (fun a => (a.input, a.name)) = (aliasNames inp).map (inp.name, ·) := by
  unfold inputAliases at h
  unfold slotAliases aliasNames
  cases hClause : inp.destructure with
  | none =>
    rw [hClause] at h
    obtain rfl := Except.ok.inj h
    exact ⟨rfl, rfl⟩
  | some d =>
    rw [hClause] at h
    dsimp only at h ⊢
    split at h
    · cases h
    · next actual hClass =>
      split at h
      · cases h
      · next hLength =>
        obtain rfl := Except.ok.inj h
        rw [hClass]
        constructor
        · exact List.map_zip_eq_zipWith
        · have hNames : (d.slots.zip actual).map Prod.fst = d.slots :=
            List.map_fst_zip (Nat.le_of_not_lt hLength)
          rw [List.map_map]
          conv_rhs => rw [← hNames, List.map_map]
          rfl

theorem formAliases_ok {classSlots : Dict String (List String)} {form : LetForm} {as : List Alias}
    (h : formAliases classSlots form = .ok as) : as = form.inputs.flatMap (slotAliases classSlots) ∧
      as.map (fun a => (a.input, a.name)) = aliasPairs form := by
  obtain ⟨ass, hEach, rfl⟩ := ok_of_map h
  clear h
  unfold aliasPairs
  generalize form.inputs = inputs at hEach ⊢
  induction inputs generalizing ass with
  | nil =>
    obtain rfl := Except.ok.inj hEach
    exact ⟨rfl, rfl⟩
  | cons inp inputs ih =>
    rw [List.mapM_cons] at hEach
    obtain ⟨as, hAs, hEach⟩ := ok_of_bind hEach
    obtain ⟨rest, hRest, hEach⟩ := ok_of_bind hEach
    obtain rfl := Except.ok.inj hEach
    obtain ⟨hSlots, hNames⟩ := inputAliases_ok hAs
    obtain ⟨hRestSlots, hRestNames⟩ := ih rest hRest
    rw [List.flatten_cons, List.flatMap_cons, List.flatMap_cons, List.map_append, hNames, hRestNames,
      ← hSlots, ← hRestSlots]
    exact ⟨rfl, rfl⟩

section Bindings
variable {V : Type} {I : Interpretation V} {f64 : FloatLit → Option Rat}

/-- The code of an alias reads its object from what its input's name stands for by then. -/
theorem run_alias (a : Alias) (env : LetEnv V) (stack : List (Cell V)) :
    runCode I ⟨locals env, stack⟩ (aliasCode a) =
      (bindAlias I env env a).map fun env => ⟨locals env, stack⟩ := by
  show (((locals env).lookup (factorLocal a.input)).map _).bind _ = _
  rw [lookup_locals, bindAlias]
  cases env.lookup a.input with
  | none => rfl
  | some object =>
    show ((I.getter a.getter object).map _).bind _ = ((I.getter a.getter object).map _).map _
    cases I.getter a.getter object <;> rfl

theorem run_aliases (as : List Alias) (env : LetEnv V) (stack : List (Cell V)) :
    runCode I ⟨locals env, stack⟩ (as.flatMap aliasCode) =
      (as.foldlM (fun env => bindAlias I env env) env).map fun env => ⟨locals env, stack⟩ := by
  induction as generalizing env with
  | nil => rfl
  | cons a as ih =>
    rw [List.flatMap_cons, runCode_append, run_alias, List.foldlM_cons]
    cases bindAlias I env env a with
    | none => rfl
    | some next => exact ih next

/-- Aliases that are apart from the inputs still to be read leave these as they were. -/
theorem foldlM_apart {start env : LetEnv V} {as : List Alias}
    (hSame : ∀ a ∈ as, env.lookup a.input = start.lookup a.input)
    (hApart : as.Pairwise fun a b => a.name ≠ b.input) :
    as.foldlM (fun env => bindAlias I env env) env = as.foldlM (bindAlias I start) env := by
  induction as generalizing env with
  | nil => rfl
  | cons a as ih =>
    obtain ⟨hHead, hTail⟩ := List.pairwise_cons.mp hApart
    rw [List.foldlM_cons, List.foldlM_cons]
    have hStep : bindAlias I env env a = bindAlias I start env a := by
      rw [bindAlias, hSame a List.mem_cons_self, bindAlias]
    rw [hStep]
    cases hNext : bindAlias I start env a with
    | none => rfl
    | some next =>
      refine @ih next ?_ hTail
      intro b hb
      obtain ⟨object, -, hSlot⟩ := Option.bind_eq_some_iff.mp hNext
      obtain ⟨v, -, rfl⟩ := Option.map_eq_some_iff.mp hSlot
      rw [Dict.lookup_cons, if_neg (hHead b hb)]
      exact hSame b (List.mem_cons_of_mem _ hb)

theorem run_where (hPow : I.Powers f64) {w : String × Expr} {env : LetEnv V}
    (hScoped : Scoped (env.map Prod.fst) w.2) (hFinite : FiniteExpr f64 w.2) (stack : List (Cell V)) :
    runCode I ⟨locals env, stack⟩ (whereCode f64 w) =
      (bindWhere I env w).map fun env => ⟨locals env, stack⟩ := by
  rw [whereCode, runCode_append, run_emitExpr hPow hScoped hFinite, bindWhere]
  cases evalExpr I env w.2 <;> rfl

theorem run_wheres (hPow : I.Powers f64) {wheres : List (String × Expr)} {env : LetEnv V}
    (hScoped : ScopedWheres (env.map Prod.fst) wheres) (hFinite : ∀ w ∈ wheres, FiniteExpr f64 w.2)
    (stack : List (Cell V)) : runCode I ⟨locals env, stack⟩ (wheres.flatMap (whereCode f64)) =
      (wheres.foldlM (bindWhere I) env).map fun env => ⟨locals env, stack⟩ := by
  induction wheres generalizing env with
  | nil => rfl
  | cons w wheres ih =>
    obtain ⟨hFirst, hRest⟩ := List.forall_mem_cons.mp hFinite
    rw [List.flatMap_cons, runCode_append, run_where hPow hScoped.1 hFirst, List.foldlM_cons]
    cases hNext : bindWhere I env w with
    | none => rfl
    | some next =>
      have hNames : ScopedWheres (next.map Prod.fst) wheres := by
        rw [bindWhere_names hNext]
        exact hScoped.2
      exact ih hNames hRest

theorem emitArgs_flatMap (es : List Expr) : emitArgs f64 es = es.flatMap (emitExpr f64) := by
  induction es with
  | nil => rfl
  | cons e es ih => rw [emitArgs, ih, List.flatMap_cons]

end Bindings

/-! Forms. -/

section Forms
variable {V : Type} {I : Interpretation V} {f64 : FloatLit → Option Rat}
  {classSlots : Dict String (List String)} {form : LetForm} {code : LetCode}

theorem parse_count {number : FloatLit → String} {source : String} (h : parse number source = .ok form) :
    form.outputs.length = form.results.length := by
  obtain ⟨us, end_, -, -, hForm⟩ := parse_form h
  cases hForm
  assumption

/-- The quotation as it is called with its inputs. -/
theorem callCode_inputs (hLower : lowerToFactor f64 form classSlots = .ok code) {inputs : List V}
    (hInputs : inputs.length = form.inputs.length) (stack : List (Cell V)) :
    callCode I code (onTop inputs stack) = (runCode I ⟨locals (inputEnv form inputs), stack⟩
      ((form.inputs.flatMap (slotAliases classSlots)).flatMap aliasCode ++
        form.wheres.flatMap (whereCode f64) ++ emitArgs f64 form.results)).bind fun done =>
      if done.stack.length = stack.length + form.outputs.length then some done.stack else none := by
  obtain ⟨as, hAs, rfl⟩ := ok_of_map hLower
  obtain ⟨rfl, -⟩ := formAliases_ok hAs
  have hTakes : (form.inputs.map fun i => factorLocal i.name).length = inputs.length := by
    rw [List.length_map, hInputs]
  have hLocals : (((form.inputs.map fun i => factorLocal i.name).zip inputs).reverse : LetEnv V) =
      locals (inputEnv form inputs) := by
    have hNames : (form.inputs.map fun i => factorLocal i.name) =
        (form.inputs.map LetInput.name).map factorLocal := List.map_map.symm
    rw [inputEnv, locals_reverse, hNames, List.zip_map_left]
    rfl
  rw [callCode, hTakes, popVals_onTop, emitArgs_flatMap, ← hLocals]
  simp only [List.length_map]
  rfl

theorem aliases_apart {as : List Alias} (hNames : as.map (fun a => (a.input, a.name)) = aliasPairs form)
    (h : (aliasPairs form).Pairwise fun a b => a.2 ≠ b.1) : as.Pairwise fun a b => a.name ≠ b.input := by
  rw [← hNames] at h
  exact List.pairwise_map.mp h

theorem alias_input {as : List Alias} (hNames : as.map (fun a => (a.input, a.name)) = aliasPairs form) :
    ∀ a ∈ as, a.input ∈ form.inputs.map LetInput.name := by
  intro a ha
  have hPair : (a.input, a.name) ∈ aliasPairs form := hNames ▸ List.mem_map_of_mem ha
  obtain ⟨inp, hInp, hPair⟩ := List.mem_flatMap.mp hPair
  obtain ⟨_, -, hPair⟩ := List.mem_map.mp hPair
  rw [← (Prod.mk.inj hPair).1]
  exact List.mem_map_of_mem hInp

theorem alias_names {as : List Alias} (hNames : as.map (fun a => (a.input, a.name)) = aliasPairs form) :
    form.inputs.flatMap aliasNames = as.map Alias.name := by
  have hSnd := congrArg (List.map Prod.snd) hNames
  rw [List.map_map, aliasPairs, List.map_flatMap] at hSnd
  simpa [Function.comp_def] using hSnd.symm

theorem headNames_bound {as : List Alias} (hNames : as.map (fun a => (a.input, a.name)) = aliasPairs form)
    {inputs : List V} (hInputs : inputs.length = form.inputs.length) {env : LetEnv V}
    (h : env.map Prod.fst = (as.map Alias.name).reverse ++ (inputEnv form inputs).map Prod.fst) :
    headNames form ⊆ env.map Prod.fst := by
  rw [h, inputEnv_names hInputs, headNames, alias_names hNames]
  intro x hx
  rcases List.mem_append.mp hx with hInput | hAlias
  · exact List.mem_append_right _ (List.mem_reverse.mpr hInput)
  · exact List.mem_append_left _ (List.mem_reverse.mpr hAlias)

theorem resultNames_bound {env env' : LetEnv V} (hBound : headNames form ⊆ env.map Prod.fst)
    (h : form.wheres.foldlM (bindWhere I) env = some env') :
    headNames form ++ form.wheres.map Prod.fst ⊆ env'.map Prod.fst := by
  rw [foldlM_names _ Prod.fst (fun _ _ _ => bindWhere_names) h]
  intro x hx
  rcases List.mem_append.mp hx with hHead | hWhere
  · exact List.mem_append_right _ (hBound hHead)
  · exact List.mem_append_left _ (List.mem_reverse.mpr hWhere)

/-- The code of a form whose aliases are apart from its inputs and whose literals are numbers. -/
theorem computes_of_computable (hPow : I.Powers f64) (hLower : lowerToFactor f64 form classSlots = .ok code)
    (hCount : form.outputs.length = form.results.length) (hScoped : FormScoped form)
    (h : FormComputable f64 form) : Computes I classSlots form code := by
  intro inputs stack hInputs
  obtain ⟨as, hAs, -⟩ := ok_of_map hLower
  obtain ⟨rfl, hNames⟩ := formAliases_ok hAs
  rw [callCode_inputs hLower hInputs, runCode_append, runCode_append, run_aliases,
    foldlM_apart (fun _ _ => rfl) (aliases_apart hNames h.aliases), formMeaning]
  cases hAliases : (form.inputs.flatMap (slotAliases classSlots)).foldlM
    (bindAlias I (inputEnv form inputs)) (inputEnv form inputs) with
  | none => rfl
  | some env =>
    have hBound := headNames_bound hNames hInputs (aliases_names hAliases)
    have hRun := run_wheres hPow (scopedWheres_mono hBound hScoped.wheres) h.wheres stack
    show (((runCode I ⟨locals env, stack⟩ _).bind _).bind _) = ((form.wheres.foldlM (bindWhere I) env).bind _).map _
    rw [hRun]
    cases hWheres : form.wheres.foldlM (bindWhere I) env with
    | none => rfl
    | some env' =>
      have hArgs := run_emitArgs hPow (scopedArgs_mono (resultNames_bound hBound hWheres) hScoped.results)
        h.results stack
      show ((runCode I ⟨locals env', stack⟩ _).bind _) = (evalArgs I env' form.results).map _
      rw [hArgs]
      cases hResults : evalArgs I env' form.results with
      | none => rfl
      | some results =>
        have hHeight : (onTop results stack).length = stack.length + form.outputs.length := by
          rw [onTop, List.length_append, List.length_map, List.length_reverse, evalArgs_length hResults,
            hCount, Nat.add_comm]
        exact if_pos hHeight

end Forms
end FactorForth.Correctness.LetForms
