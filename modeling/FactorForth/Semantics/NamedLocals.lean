import FactorForth.Semantics.Linking

/-! Locals by name: the inputs of a `::` and the values that its code binds, each read where it stands
as text. Binding a row of names and pushing it back moves values between the stack and the names. -/

namespace FactorForth.Semantics
open FactorForth.Library FactorForth.Compiler
variable {Obj World α : Type}

/-- Text that stands as it is names a local where that name is bound in front of it. -/
def readLocals (bound : List String) : List Tok → List Tok
  | [] => []
  | .name s :: ts =>
    (if bound.contains s then .word (.local_ s) else .name s) :: readLocals bound ts
  | .bind (some s) :: ts => .bind (some s) :: readLocals (s :: bound) ts
  | t :: ts => t :: readLocals bound ts

/-- The code of a `::` that reads the locals of its header and those it binds itself. -/
def localsCode (V : Vm Obj World) (inputs : List (Option String)) (body : List Tok) :
    Command Obj World PUnit :=
  bindInputs inputs >>= fun _ => run V (readLocals (inputs.filterMap id) body)

/-- Code that binds nothing is read by its header. -/
theorem readLocals_header (inputs : List (Option String)) {body : List Tok}
    (h : ∀ name, .bind name ∉ body) :
    readLocals (inputs.filterMap id) body = body.map (readInput inputs) := by
  induction body with
  | nil => rfl
  | cons tok body ih =>
    have hRest := ih fun name hIn => h name (List.mem_cons_of_mem _ hIn)
    cases tok with
    | name s =>
      have hSame : (inputs.filterMap id).contains s = inputs.contains (some s) := by simp
      rw [readLocals, hRest, hSame]
      rfl
    | bind name => exact absurd List.mem_cons_self (h name)
    | _ => exact congrArg _ hRest

theorem localsCode_eq_lineCode (V : Vm Obj World) (name : String) (inputs : List (Option String))
    (outputs : List String) {body : List Tok} (h : ∀ name, .bind name ∉ body) :
    lineCode V (.localsColon name inputs outputs body) = some (localsCode V inputs body) := by
  unfold localsCode
  rw [readLocals_header inputs h]
  rfl

/-! Reading rows of names. -/

def localToks (names : List String) : List Tok := names.map fun s => .word (.local_ s)

def bindToks (names : List String) : List Tok := names.map fun s => .bind (some s)

theorem readLocals_names {bound names : List String} (h : names ⊆ bound) (ts : List Tok) :
    readLocals bound (nameToks names ++ ts) = localToks names ++ readLocals bound ts := by
  induction names with
  | nil => rfl
  | cons name names ih =>
    obtain ⟨hName, hNames⟩ := List.cons_subset.mp h
    have hBound : bound.contains name = true := by simpa using hName
    show readLocals bound (.name name :: (nameToks names ++ ts)) = _
    rw [readLocals, if_pos hBound, ih hNames]
    rfl

theorem readLocals_binds (bound names : List String) (ts : List Tok) :
    readLocals bound (bindToks names ++ ts) =
      bindToks names ++ readLocals (names.reverse ++ bound) ts := by
  induction names generalizing bound with
  | nil => rfl
  | cons name names ih =>
    show readLocals bound (.bind (some name) :: (bindToks names ++ ts)) = _
    rw [readLocals, ih, List.reverse_cons, List.append_assoc]
    rfl

/-! Moving a row of values. -/

section Rows
variable {s : State Obj World}

/-- The names with their values, where the last one was on top of the stack. -/
theorem bindInputs_bind {names : List String} {vs rest : List (Value Obj)}
    (hStack : s.stack = vs ++ rest) (hLength : vs.length = names.length)
    (f : PUnit → Command Obj World α) :
    (bindInputs (names.map some) >>= f) s =
      f ⟨⟩ { s with stack := rest, env := names.zip vs.reverse ++ s.env } := by
  induction names generalizing vs rest f with
  | nil =>
    obtain rfl := List.eq_nil_of_length_eq_zero hLength
    have hRest : rest = s.stack := hStack.symm
    rw [List.map_nil, bindInputs, pure_bind, hRest]
    rfl
  | cons name names ih =>
    -- the first name takes the value below all the others
    obtain ⟨front, v, rfl⟩ := List.eq_nil_or_concat vs |>.resolve_left fun hNil => by
      rw [hNil] at hLength
      cases hLength
    have hFront : front.length = names.length := by simpa using hLength
    have hBelow : s.stack = front ++ (v :: rest) := by rw [hStack]; simp
    rw [List.map_cons, bindInputs, bind_assoc, ih hBelow hFront]
    unfold bindLocal
    rw [Cmd.ofOption_bind_some rfl]
    simp

theorem bindInputs_short {names : List String} (h : s.stack.length < names.length)
    (f : PUnit → Command Obj World α) (out : Out (State Obj World) α) :
    ¬ (bindInputs (names.map some) >>= f) s out := by
  induction names generalizing f with
  | nil => cases h
  | cons name names ih =>
    rw [List.map_cons, bindInputs, bind_assoc]
    rcases Nat.lt_or_ge s.stack.length names.length with hLess | hEnough
    · exact ih hLess _
    · have hAll : s.stack.length = names.length := Nat.le_antisymm (Nat.lt_succ_iff.mp h) hEnough
      rw [bindInputs_bind (List.append_nil s.stack).symm hAll]
      unfold bindLocal
      exact Cmd.ofOption_bind_none rfl f out

theorem bindInputs_ok {names : List String} {f : PUnit → Command Obj World α} {a : α}
    {t : State Obj World} :
    (bindInputs (names.map some) >>= f) s (.ok a t) ↔
      ∃ vs rest, s.stack = vs ++ rest ∧ vs.length = names.length ∧
        f ⟨⟩ { s with stack := rest, env := names.zip vs.reverse ++ s.env } (.ok a t) := by
  constructor
  · intro h
    rcases Nat.lt_or_ge s.stack.length names.length with hShort | hEnough
    · exact absurd h (bindInputs_short hShort f _)
    · have hSplit := (List.take_append_drop names.length s.stack).symm
      have hLength := List.length_take_of_le hEnough
      rw [bindInputs_bind hSplit hLength] at h
      exact ⟨_, _, hSplit, hLength, h⟩
  · rintro ⟨vs, rest, hStack, hLength, h⟩
    rw [bindInputs_bind hStack hLength]
    exact h

/-- `:>` takes the names from the last one on, as a header does. -/
theorem run_bindToks (V : Vm Obj World) (names : List String) :
    run V (bindToks names.reverse) = bindInputs (names.map some) := by
  induction names with
  | nil => exact run_nil V
  | cons name names ih =>
    have hSplit : bindToks (name :: names).reverse =
        bindToks names.reverse ++ [.bind (some name)] := by simp [bindToks]
    rw [hSplit, run_append, ih, run_cons, run_nil]
    exact congrArg _ (funext fun _ => bind_pure_unit)

/-- Names that are bound are pushed back in their order. -/
theorem run_localToks (V : Vm Obj World) {env : Env Obj} {names : List String}
    {vs : List (Value Obj)} (h : List.Forall₂ (fun name v => env.lookup name = some v) names vs)
    {s : State Obj World} (hEnv : s.env = env) (f : PUnit → Command Obj World α) :
    (run V (localToks names) >>= f) s = f ⟨⟩ { s with stack := vs.reverse ++ s.stack } := by
  induction h generalizing s f with
  | nil =>
    rw [localToks, List.map_nil, run_nil, pure_bind]
    rfl
  | @cons name v names vs hName hNames ih =>
    have hPush : (run V (.word (.local_ name) :: localToks names) >>= f) s =
        (run V (localToks names) >>= f) { s with stack := v :: s.stack } := by
      have hLookup : (s.env.lookup name).map (fun v => (PUnit.unit, { s with stack := v :: s.stack })) =
          some (⟨⟩, { s with stack := v :: s.stack }) := by rw [hEnv, hName]; rfl
      rw [run_cons, bind_assoc]
      show (lookupLocal name >>= fun _ => run V (localToks names) >>= f) s = _
      unfold lookupLocal
      rw [Cmd.ofOption_bind_some hLookup]
    have hBehind := @ih { s with stack := v :: s.stack } hEnv f
    refine hPush.trans (hBehind.trans ?_)
    simp

theorem userTok_bind (V : Vm Obj World) (w : String) (f : PUnit → Command Obj World α)
    {s : State Obj World} {t : State Obj World} {a : α} :
    (run V [userTok w] >>= f) s (.ok a t) ↔
      ∃ m, V.word (.userDefined w) s.toMachine m ∧ f ⟨⟩ ⟨m, s.env⟩ (.ok a t) := by
  have hCall : run V [userTok w] = onMachine (V.word (.userDefined w)) := by
    rw [run_cons, run_nil]
    exact bind_pure_unit
  rw [hCall, Cmd.bind_ok]
  constructor
  · rintro ⟨⟨⟩, u, ⟨u', ⟨hWord, hEnv⟩, hOut⟩, hRest⟩
    obtain rfl : u = u' := (Out.ok.inj hOut).2
    refine ⟨u.toMachine, hWord, ?_⟩
    rw [← hEnv]
    exact hRest
  · rintro ⟨m, hWord, hRest⟩
    exact ⟨⟨⟩, ⟨m, s.env⟩, ⟨⟨m, s.env⟩, ⟨hWord, rfl⟩, rfl⟩, hRest⟩

/-- A word that is handed the values of the names. -/
theorem handed_ok (V : Vm Obj World) {names : List String} {vs : List (Value Obj)}
    {m : Machine Obj World} {env : Env Obj}
    (h : List.Forall₂ (fun name v => env.lookup name = some v) names vs) (w : String)
    (f : PUnit → Command Obj World α) {a : α} {t : State Obj World} :
    (run V (localToks names ++ [userTok w]) >>= f) ⟨m, env⟩ (.ok a t) ↔
      ∃ m', V.word (.userDefined w) { m with stack := vs.reverse ++ m.stack } m' ∧
        f ⟨⟩ ⟨m', env⟩ (.ok a t) := by
  rw [run_append, bind_assoc, run_localToks V h rfl]
  exact userTok_bind V w f

end Rows

/-- Distinct names have the values they were bound with, whatever is bound outside. -/
theorem lookup_zip {names : List String} (hNodup : names.Nodup) {vs : List (Value Obj)}
    (hLength : names.length = vs.length) (env : Env Obj) :
    List.Forall₂ (fun name v => (names.zip vs ++ env).lookup name = some v) names vs := by
  refine List.forall₂_iff_zip.mpr ⟨hLength, fun {name v} hIn => ?_⟩
  induction names generalizing vs with
  | nil => cases hIn
  | cons first names ih =>
    obtain ⟨w, vs, rfl⟩ := List.exists_cons_of_length_eq_add_one hLength.symm
    obtain ⟨hFirst, hNames⟩ := List.nodup_cons.mp hNodup
    rw [List.zip_cons_cons, List.cons_append, List.lookup_cons]
    rcases List.mem_cons.mp hIn with hEq | hBehind
    · obtain ⟨rfl, rfl⟩ := Prod.mk.inj hEq
      simp
    · have hOther : name ≠ first := fun hEq => hFirst (hEq ▸ (List.of_mem_zip hBehind).1)
      rw [beq_false_of_ne hOther]
      exact ih hNames (by simpa using hLength) hBehind

/-- Names bound further in leave the others as they were. -/
theorem lookup_behind {names inner : List String} (hApart : names.Disjoint inner)
    {vs : List (Value Obj)} (ws : List (Value Obj)) {env : Env Obj}
    (h : List.Forall₂ (fun name v => env.lookup name = some v) names vs) :
    List.Forall₂ (fun name v => (inner.zip ws ++ env).lookup name = some v) names vs := by
  obtain ⟨hLength, hAll⟩ := List.forall₂_iff_zip.mp h
  refine List.forall₂_iff_zip.mpr ⟨hLength, fun {name v} hIn => ?_⟩
  have hNone : (inner.zip ws).lookup name = none := by
    refine List.lookup_eq_none_iff.mpr fun p hp => ?_
    have hInner : p.1 ∈ inner := (List.of_mem_zip hp).1
    have hOther : name ≠ p.1 := fun hEq => hApart (List.of_mem_zip hIn).1 (hEq ▸ hInner)
    simpa using hOther
  rw [List.lookup_append, hNone, Option.none_or]
  exact hAll hIn

end FactorForth.Semantics
