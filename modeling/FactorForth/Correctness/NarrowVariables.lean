import FactorForth.Correctness.NarrowUses
import FactorForth.Correctness.Session
import FactorForth.Semantics.Variables

/-! Narrow and wide variables: the code that keeps a variable in a global of its own against the code that
keeps it in the bytes behind an address. -/

namespace FactorForth.Correctness
open FactorForth.Library FactorForth.Compiler FactorForth.Semantics
variable {α ω : Type}

/-- The global of a wide variable that holds its address. -/
def hiddenName (x : String) : String := "nf-var-" ++ x

section Pairing
variable (N : String → Prop)

/-- The globals in which a variable of `N` is kept, in the one way or the other. -/
def Reserved (s : String) : Prop := ∃ x, N x ∧ (s = factorUserName x ∨ s = hiddenName x)

/-- An access to a narrow variable, and the same access to a wide one. -/
inductive Access : List Tok → List Tok → Prop
  | fetch {x : String} (h : N x) :
      Access [.symbol (factorUserName x), getGlobal] [userTok (factorUserName x), runtimeWord "@"]
  | store {x : String} (h : N x) :
      Access [.symbol (factorUserName x), setGlobal] [userTok (factorUserName x), runtimeWord "nf-!"]
  | plusStore {x : String} (h : N x) :
      Access [.symbol (factorUserName x), getGlobal, plusTok, .symbol (factorUserName x), setGlobal]
        [userTok (factorUserName x), runtimeWord "nf-+!"]

/-- Outside its accesses no code names a variable of `N`. -/
def Shared : Tok → Prop
  | .symbol s => ¬ Reserved N s
  | .word (.userDefined n) => ∀ x, N x → n ≠ factorUserName x
  | .quot _ => False
  | _ => True

/-- What the program with narrow variables and the one with wide variables have in common. -/
def narrowing (α : Type) : Pairing (Thing α) (Thing α) where
  obj o o' := o = o' ∧ (∀ s, o = .symbol s → ¬ Reserved N s) ∧ ∀ x, o = .cell x → ¬ N x
  plain := Shared N
  access := Access N

/-- The numbers that come back from a cell as they were stored. -/
def InCell (n : Int) : Prop := 0 ≤ n ∧ n < 2 ^ 64

/-- The same storage twice: each variable of `N` holds the number that is in its bytes on the other side. -/
structure SameCells (ρ : ω → ω → Prop) (w w' : Storage α ω) : Prop where
  globals : ∀ s, ¬ Reserved N s → (narrowing N α).Val (w.globals s) (w'.globals s)
  variable_ : ∀ x, N x → InCell (w'.cell x) ∧ w.globals (factorUserName x) = .int (w'.cell x) ∧
    w'.globals (hiddenName x) = .obj (.cell x)
  cells : ∀ x, ¬ N x → w.cells x = w'.cells x
  rest : ρ w.rest w'.rest

/-- The stores that a cell keeps whole. -/
def cellsOnly : Thing α → Value (Thing α) → Prop
  | .symbol s, v => ∀ x, N x → s = factorUserName x → ∃ n, InCell n ∧ v = .int n
  | .cell x, v => N x → ∃ n, InCell n ∧ v = .int n
  | .other _, _ => True

end Pairing

variable {N : String → Prop} {ρ : ω → ω → Prop}

theorem factorUserName_ne_hidden (x y : String) : factorUserName x ≠ hiddenName y := by
  intro h
  have hChars := congrArg String.toList h
  unfold factorUserName hiddenName userNamePrefix at hChars
  rw [String.toList_append, String.toList_append] at hChars
  cases hChars

theorem SameCells.setGlobal {w w' : Storage α ω} (h : SameCells N ρ w w') {s : String} (hs : ¬ Reserved N s)
    {v v' : Value (Thing α)} (hVal : (narrowing N α).Val v v') :
    SameCells N ρ (w.setGlobal s v) (w'.setGlobal s v') where
  globals t ht := by
    by_cases hEq : t = s
    · rw [hEq, w.globals_setGlobal, w'.globals_setGlobal]
      exact hVal
    · rw [w.globals_setGlobal_ne hEq, w'.globals_setGlobal_ne hEq]
      exact h.globals t ht
  variable_ x hx := by
    obtain ⟨hCell, hNarrow, hWide⟩ := h.variable_ x hx
    refine ⟨hCell, ?_, ?_⟩
    · rw [w.globals_setGlobal_ne fun hEq => hs ⟨x, hx, Or.inl hEq.symm⟩]
      exact hNarrow
    · rw [w'.globals_setGlobal_ne fun hEq => hs ⟨x, hx, Or.inr hEq.symm⟩]
      exact hWide
  cells := h.cells
  rest := h.rest

theorem SameCells.setCell {w w' : Storage α ω} (h : SameCells N ρ w w') {x : String} (hx : ¬ N x) (n : Int) :
    SameCells N ρ (w.setCell x n) (w'.setCell x n) where
  globals := h.globals
  variable_ y hy := by
    have hNe : y ≠ x := by
      rintro rfl
      exact hx hy
    rw [w'.cell_setCell_ne hNe]
    exact h.variable_ y hy
  cells y hy := by
    by_cases hEq : y = x
    · rw [hEq, w.cells_setCell, w'.cells_setCell]
    · rw [w.cells_setCell_ne hEq, w'.cells_setCell_ne hEq]
      exact h.cells y hy
  rest := h.rest

theorem stored_narrowing : Stored (narrowing N α) (SameCells N ρ) where
  same _ _ h := h.1
  global s w w' hObj h := h.globals s (hObj.2.1 s rfl)
  setGlobal s w w' v v' hObj h hVal := h.setGlobal (hObj.2.1 s rfl) hVal
  cell x w w' hObj h := by
    unfold Storage.cell
    rw [h.cells x (hObj.2.2 x rfl)]
  setCell x w w' n hObj h := h.setCell (hObj.2.2 x rfl) n

/-- Different variables of `N` are kept in different globals. -/
def VariablesApart (N : String → Prop) : Prop := ∀ x y, N x → N y → factorUserName x = factorUserName y → x = y

/-- A store into a variable, in the one way and in the other. -/
theorem SameCells.store {w w' : Storage α ω} (h : SameCells N ρ w w') (hApart : VariablesApart N) {x : String} (hx : N x)
    {n : Int} (hn : InCell n) : SameCells N ρ (w.setGlobal (factorUserName x) (.int n)) (w'.setCell x n) where
  globals s hs := by
    rw [w.globals_setGlobal_ne fun hEq => hs ⟨x, hx, Or.inl hEq⟩]
    exact h.globals s hs
  variable_ y hy := by
    obtain ⟨hCell, hNarrow, hWide⟩ := h.variable_ y hy
    by_cases hEq : y = x
    · rw [hEq] at hWide ⊢
      rw [w'.cell_setCell x hn.1 hn.2]
      exact ⟨hn, w.globals_setGlobal _ _, hWide⟩
    · rw [w'.cell_setCell_ne hEq, w.globals_setGlobal_ne fun hName => hEq (hApart y x hy hx hName)]
      exact ⟨hCell, hNarrow, hWide⟩
  cells y hy := by
    have hNe : y ≠ x := by
      rintro rfl
      exact hy hx
    rw [w'.cells_setCell_ne hNe]
    exact h.cells y hy
  rest := h.rest

/-! The accesses. -/

/-- A machine that has the storage, with whatever other words. -/
structure HasStorage (U B : Vm (Thing α) (Storage α ω)) (ok : Thing α → Value (Thing α) → Prop) : Prop where
  symbol : U.symbol = .symbol
  word : ∀ t op, StoreOp.of t = some op → U.word t = (B.withStorage ok).word t

section Storage
variable {U B : Vm (Thing α) (Storage α ω)} {ok : Thing α → Value (Thing α) → Prop}
  {call : Caller (Thing α) (Storage α ω)} {s : State (Thing α) (Storage α ω)}
  {out : Out (State (Thing α) (Storage α ω)) PUnit}

theorem run_word (h : HasStorage U B ok) {t : Target} {op : StoreOp} (hOp : StoreOp.of t = some op)
    {rest : List Tok} : runSeq U call (.word t :: rest) s out ↔
      ∃ m, (if op.owns s.stack then op.Step ok s.toMachine m else B.word t s.toMachine m) ∧
        runSeq U call rest ⟨m, s.env⟩ out := by
  have hExit : t ≠ Target.exit := by
    rintro rfl
    cases hOp
  have hReference : U.reference t = onMachine (U.word t) := by
    cases t with
    | local_ n => cases hOp
    | builtin | qualifiedBuiltin => simp only [Vm.reference, if_neg hExit]
    | userDefined n => cases hOp
  show (U.reference t >>= fun _ => runSeq U call rest) s out ↔ _
  rw [hReference, h.word t op hOp]
  constructor
  · rintro (⟨a, u, ⟨v, ⟨hStep, hEnv⟩, hOk⟩, hRest⟩ | ⟨u, -, v, -, hRet⟩ | ⟨-, v, -, hFault⟩)
    · cases hOk
      refine ⟨u.toMachine, (withStorage_word hOp _ _).1 hStep, ?_⟩
      rw [← hEnv]
      exact hRest
    · cases hRet
    · cases hFault
  · rintro ⟨m, hStep, hRest⟩
    exact Or.inl ⟨⟨⟩, ⟨m, s.env⟩, ⟨⟨m, s.env⟩, ⟨(withStorage_word hOp _ _).2 hStep, rfl⟩, rfl⟩, hRest⟩

/-- An operation behind a symbol. -/
theorem run_symbol (h : HasStorage U B ok) {t : Target} {op : StoreOp} (hOp : StoreOp.of t = some op)
    {n : String} (hOwns : op.owns (.obj (.symbol n) :: s.stack) = true) {rest : List Tok} :
    runSeq U call (.symbol n :: .word t :: rest) s out ↔
      ∃ m, op.Step ok { s.toMachine with stack := .obj (.symbol n) :: s.stack } m ∧
        runSeq U call rest ⟨m, s.env⟩ out := by
  show (push (.obj (U.symbol n)) >>= fun _ => runSeq U call (.word t :: rest)) s out ↔ _
  rw [push_bind, h.symbol, run_word h hOp]
  simp only [hOwns, if_true]

/-- The word of a wide variable. -/
def addressTaken (x : String) (m : Machine (Thing α) (Storage α ω)) : Machine (Thing α) (Storage α ω) :=
  { m with stack := .obj (.cell x) :: m.stack }

/-- An operation behind the word of a variable, which may nest too deep to come back. -/
theorem run_address (h : HasStorage U B ok) {t : Target} {op : StoreOp} (hOp : StoreOp.of t = some op)
    {x : String} (hOwns : op.owns (.obj (.cell x) :: s.stack) = true)
    (hAddress : ∀ m, U.word (.userDefined (factorUserName x)) s.toMachine m → m = addressTaken x s.toMachine)
    (hRun : runSeq U call [userTok (factorUserName x), .word t] s out) :
    ∃ m, op.Step ok (addressTaken x s.toMachine) m ∧ out = .ok ⟨⟩ ⟨m, s.env⟩ := by
  obtain ⟨a, u, ⟨v, ⟨hWord, hEnv⟩, hOk⟩, hRest⟩ | ⟨u, -, v, -, hRet⟩ | ⟨-, v, -, hFault⟩ := hRun
  · cases hOk
    obtain ⟨m, hStep, hOut⟩ := (run_word h hOp).1 hRest
    have hStack : op.owns u.stack = true := by
      rw [hAddress _ hWord]
      exact hOwns
    rw [if_pos hStack, hAddress _ hWord] at hStep
    refine ⟨m, hStep, ?_⟩
    rw [← hEnv]
    exact hOut
  · cases hRet
  · cases hFault

theorem address_run (h : HasStorage U B ok) {t : Target} {op : StoreOp} (hOp : StoreOp.of t = some op)
    {x : String} (hOwns : op.owns (.obj (.cell x) :: s.stack) = true)
    (hAddress : U.word (.userDefined (factorUserName x)) s.toMachine (addressTaken x s.toMachine))
    {m : Machine (Thing α) (Storage α ω)} (hStep : op.Step ok (addressTaken x s.toMachine) m) :
    runSeq U call [userTok (factorUserName x), .word t] s (.ok ⟨⟩ ⟨m, s.env⟩) := by
  have hFirst : stepTok U call (userTok (factorUserName x)) s (.ok ⟨⟩ ⟨addressTaken x s.toMachine, s.env⟩) :=
    ⟨⟨addressTaken x s.toMachine, s.env⟩, ⟨hAddress, rfl⟩, rfl⟩
  have hStack : op.owns (addressTaken x s.toMachine).stack = true := hOwns
  exact Or.inl ⟨⟨⟩, _, hFirst, (run_word h hOp).2 ⟨m, by rwa [if_pos hStack], rfl⟩⟩

end Storage

/-! The words of the variables. -/

/-- How the word of a wide variable is defined. -/
def addressLine (x : String) : Line :=
  .colon (factorUserName x) ⟨[], ["addr"]⟩ [.symbol (hiddenName x), getGlobal] true

section Words
variable {B : Vm (Thing α) (Storage α ω)} {ok : Thing α → Value (Thing α) → Prop}
  {defs : String → Option Line} {x : String} {m m' : Machine (Thing α) (Storage α ω)}

theorem link_hasStorage (k : Nat) : HasStorage ((B.withStorage ok).link defs k) B ok where
  symbol := by cases k <;> rfl
  word t op hOp := by
    cases t with
    | local_ n => cases hOp
    | userDefined n => cases hOp
    | builtin | qualifiedBuiltin => cases k <;> rfl

theorem address_succ (hDef : defs (factorUserName x) = some (addressLine x))
    (hWide : m.world.globals (hiddenName x) = .obj (.cell x)) (k : Nat) :
    ((B.withStorage ok).link defs (k + 1)).word (.userDefined (factorUserName x)) m m' ↔
      m' = addressTaken x m := by
  have hRun : (called (run ((B.withStorage ok).link defs k) [.symbol (hiddenName x), getGlobal]) m m') ↔
      ∃ env n, StoreOp.getGlobal.Step ok { m with stack := .obj (.symbol (hiddenName x)) :: m.stack } n ∧
        Out.ok (α := PUnit) ⟨⟩ (State.mk m' env) = .ok ⟨⟩ ⟨n, []⟩ := by
    unfold called
    rw [run_eq]
    exact exists_congr fun env => run_symbol (link_hasStorage k) rfl rfl
  rw [link_word_succ hDef rfl, hRun]
  constructor
  · rintro ⟨env, n, hStep, hOut⟩
    cases hOut
    cases hStep with
    | getGlobal hStack =>
      cases hStack
      exact congrArg (fun v => { m with stack := v :: m.stack }) hWide
  · rintro rfl
    refine ⟨[], _, .getGlobal rfl, ?_⟩
    show _ = Out.ok _ (State.mk { m with stack := m.world.globals (hiddenName x) :: m.stack } [])
    rw [hWide]
    rfl

theorem address_sound (hDef : defs (factorUserName x) = some (addressLine x))
    (hWide : m.world.globals (hiddenName x) = .obj (.cell x)) (k : Nat)
    (h : ((B.withStorage ok).link defs k).word (.userDefined (factorUserName x)) m m') :
    m' = addressTaken x m := by
  cases k with
  | zero =>
    rw [link_word_zero hDef rfl] at h
    exact h.elim
  | succ k => exact (address_succ hDef hWide k).1 h

end Words

/-! The accesses stand for each other. -/

/-- The sum of an integer and something that is no integer is no integer. -/
def SumsApart (B : Vm (Thing α) (Storage α ω)) : Prop :=
  ∀ m m' b st n st', m.stack = .int b :: st → StoreOp.plus.owns m.stack = false →
    B.word (.builtin "math" "+") m m' → m'.stack ≠ .int n :: st'

/-- The program with wide variables has a word for each of them. -/
def HasAddresses (N : String → Prop) (defs : String → Option Line) : Prop :=
  ∀ x, N x → defs (factorUserName x) = some (addressLine x)

section Exchanges
variable {B B' : Vm (Thing α) (Storage α ω)} {defs defs' : String → Option Line} {x : String}
  {call call' : Caller (Thing α) (Storage α ω)} {s s' : State (Thing α) (Storage α ω)}
  {out : Out (State (Thing α) (Storage α ω)) PUnit}

theorem fetch_wide (hDefs : HasAddresses N defs') (hx : N x) (k : Nat)
    (hs : (narrowing N α).States (SameCells N ρ) s s')
    (hRun : runSeq ((B.withStorage (cellsOnly N)).link defs k) call [.symbol (factorUserName x), getGlobal] s out) :
    ∃ out', runSeq ((B'.withStorage anything).link defs' (k + 1)) call'
      [userTok (factorUserName x), runtimeWord "@"] s' out' ∧
      Out.Like ((narrowing N α).States (SameCells N ρ)) Eq out out' := by
  obtain ⟨-, hNarrow, hWide⟩ := hs.machines.world.variable_ x hx
  obtain ⟨m, hStep, rfl⟩ := (run_symbol (link_hasStorage k) rfl rfl).1 hRun
  cases hStep with
  | getGlobal hStack =>
    cases hStack
    refine ⟨_, address_run (link_hasStorage _) rfl rfl ((address_succ (hDefs x hx) hWide k).2 rfl) (.fetch rfl),
      .ok rfl ⟨⟨.cons ?_ hs.machines.stack, hs.machines.frames, hs.machines.world⟩, hs.env⟩⟩
    show Pairing.Val _ (s.world.globals (factorUserName x)) (.int (s'.world.cell x))
    rw [hNarrow]
    exact .int _

theorem store_wide (hDefs : HasAddresses N defs') (hApart : VariablesApart N) (hx : N x) (k : Nat)
    (hs : (narrowing N α).States (SameCells N ρ) s s')
    (hRun : runSeq ((B.withStorage (cellsOnly N)).link defs k) call [.symbol (factorUserName x), setGlobal] s out) :
    ∃ out', runSeq ((B'.withStorage anything).link defs' (k + 1)) call'
      [userTok (factorUserName x), runtimeWord "nf-!"] s' out' ∧
      Out.Like ((narrowing N α).States (SameCells N ρ)) Eq out out' := by
  obtain ⟨-, -, hWide⟩ := hs.machines.world.variable_ x hx
  obtain ⟨m, hStep, rfl⟩ := (run_symbol (link_hasStorage k) rfl rfl).1 hRun
  cases hStep with
  | setGlobal hStack hOk =>
    obtain ⟨hTop, hBelow⟩ := List.cons.inj hStack
    cases hTop
    obtain ⟨n, hn, rfl⟩ := hOk x hx rfl
    obtain ⟨v', st', hStack', hVal, hRest⟩ := hs.machines.top hBelow
    rw [int_like hVal] at hStack'
    exact ⟨_, address_run (link_hasStorage _) rfl rfl ((address_succ (hDefs x hx) hWide k).2 rfl)
      (.store (congrArg (List.cons _) hStack') trivial),
      .ok rfl ⟨⟨hRest, hs.machines.frames, hs.machines.world.store hApart hx hn⟩, hs.env⟩⟩

theorem plusStore_wide (hB : SumsApart B) (hDefs : HasAddresses N defs') (hApart : VariablesApart N)
    (hx : N x) (k : Nat) (hs : (narrowing N α).States (SameCells N ρ) s s')
    (hRun : runSeq ((B.withStorage (cellsOnly N)).link defs k) call
      [.symbol (factorUserName x), getGlobal, plusTok, .symbol (factorUserName x), setGlobal] s out) :
    ∃ out', runSeq ((B'.withStorage anything).link defs' (k + 1)) call'
      [userTok (factorUserName x), runtimeWord "nf-+!"] s' out' ∧
      Out.Like ((narrowing N α).States (SameCells N ρ)) Eq out out' := by
  obtain ⟨-, hNarrow, hWide⟩ := hs.machines.world.variable_ x hx
  obtain ⟨m, hGet, hRun⟩ := (run_symbol (link_hasStorage k) rfl rfl).1 hRun
  cases hGet with
  | getGlobal hStack =>
    cases hStack
    obtain ⟨u, hPlus, hRun⟩ := (run_word (link_hasStorage k) (show StoreOp.of _ = some .plus from rfl)).1 hRun
    obtain ⟨u', hSet, rfl⟩ := (run_symbol (link_hasStorage k) rfl rfl).1 hRun
    cases hSet with
    | setGlobal hStack hOk =>
      obtain ⟨hTop, hSum⟩ := List.cons.inj hStack
      cases hTop
      obtain ⟨n, hn, rfl⟩ := hOk x hx rfl
      split at hPlus
      · cases hPlus with
        | plus hBoth =>
          obtain ⟨hFirst, hBelow⟩ := List.cons.inj hBoth
          rw [hNarrow] at hFirst
          cases hFirst
          cases hSum
          obtain ⟨v', st', hStack', hVal, hRest⟩ := hs.machines.top hBelow
          rw [int_like hVal] at hStack'
          exact ⟨_, address_run (link_hasStorage _) rfl rfl ((address_succ (hDefs x hx) hWide k).2 rfl)
            (.plusStore (congrArg (List.cons _) hStack') trivial),
            .ok rfl ⟨⟨hRest, hs.machines.frames, hs.machines.world.store hApart hx hn⟩, hs.env⟩⟩
      · rename_i hOwns
        exact absurd hSum (hB _ _ _ _ _ _ (congrArg (· :: s.stack) hNarrow) (eq_false_of_ne_true hOwns) hPlus)

theorem fetch_narrow (hDefs : HasAddresses N defs') (hx : N x) (k : Nat)
    (hs : (narrowing N α).States (SameCells N ρ) s s')
    (hRun : runSeq ((B'.withStorage (cellsOnly N)).link defs' k) call'
      [userTok (factorUserName x), runtimeWord "@"] s' out) :
    ∃ out', runSeq ((B.withStorage anything).link defs k) call [.symbol (factorUserName x), getGlobal] s out' ∧
      Out.Like ((narrowing N α).flip.States fun w' w => SameCells N ρ w w') Eq out out' := by
  obtain ⟨-, hNarrow, hWide⟩ := hs.machines.world.variable_ x hx
  obtain ⟨m, hStep, rfl⟩ := run_address (link_hasStorage k) rfl rfl
    (fun _ => address_sound (hDefs x hx) hWide k) hRun
  cases hStep with
  | fetch hStack =>
    cases hStack
    refine ⟨_, (run_symbol (link_hasStorage k) rfl rfl).2 ⟨_, .getGlobal rfl, rfl⟩, .ok rfl (Pairing.States.flip
      ⟨⟨.cons ?_ hs.machines.stack, hs.machines.frames, hs.machines.world⟩, hs.env⟩)⟩
    show Pairing.Val _ (s.world.globals (factorUserName x)) (.int (s'.world.cell x))
    rw [hNarrow]
    exact .int _

theorem store_narrow (hDefs : HasAddresses N defs') (hApart : VariablesApart N) (hx : N x) (k : Nat)
    (hs : (narrowing N α).States (SameCells N ρ) s s')
    (hRun : runSeq ((B'.withStorage (cellsOnly N)).link defs' k) call'
      [userTok (factorUserName x), runtimeWord "nf-!"] s' out) :
    ∃ out', runSeq ((B.withStorage anything).link defs k) call [.symbol (factorUserName x), setGlobal] s out' ∧
      Out.Like ((narrowing N α).flip.States fun w' w => SameCells N ρ w w') Eq out out' := by
  obtain ⟨-, -, hWide⟩ := hs.machines.world.variable_ x hx
  obtain ⟨m, hStep, rfl⟩ := run_address (link_hasStorage k) rfl rfl
    (fun _ => address_sound (hDefs x hx) hWide k) hRun
  cases hStep with
  | store hStack hOk =>
    obtain ⟨hTop, hBelow⟩ := List.cons.inj hStack
    cases hTop
    obtain ⟨_, hn, hInt⟩ := hOk hx
    cases hInt
    obtain ⟨v', st', hStack', hVal, hRest⟩ := hs.flip.machines.top hBelow
    rw [int_like hVal] at hStack'
    exact ⟨_, (run_symbol (link_hasStorage k) rfl rfl).2
      ⟨_, .setGlobal (congrArg (List.cons _) hStack') trivial, rfl⟩,
      .ok rfl ⟨⟨hRest, hs.machines.frames.symm, hs.machines.world.store hApart hx hn⟩, hs.env.flip⟩⟩

theorem plusStore_narrow (hDefs : HasAddresses N defs') (hApart : VariablesApart N) (hx : N x) (k : Nat)
    (hs : (narrowing N α).States (SameCells N ρ) s s')
    (hRun : runSeq ((B'.withStorage (cellsOnly N)).link defs' k) call'
      [userTok (factorUserName x), runtimeWord "nf-+!"] s' out) :
    ∃ out', runSeq ((B.withStorage anything).link defs k) call
      [.symbol (factorUserName x), getGlobal, plusTok, .symbol (factorUserName x), setGlobal] s out' ∧
      Out.Like ((narrowing N α).flip.States fun w' w => SameCells N ρ w w') Eq out out' := by
  obtain ⟨-, hNarrow, hWide⟩ := hs.machines.world.variable_ x hx
  obtain ⟨m, hStep, rfl⟩ := run_address (link_hasStorage k) rfl rfl
    (fun _ => address_sound (hDefs x hx) hWide k) hRun
  cases hStep with
  | @plusStore _ _ n _ hStack hOk =>
    obtain ⟨hTop, hBelow⟩ := List.cons.inj hStack
    cases hTop
    obtain ⟨_, hn, hInt⟩ := hOk hx
    cases hInt
    obtain ⟨v', st', hStack', hVal, hRest⟩ := hs.flip.machines.top hBelow
    rw [int_like hVal] at hStack'
    have hBoth : s.world.globals (factorUserName x) :: s.stack = .int (s'.world.cell x) :: .int n :: st' := by
      rw [hNarrow, hStack']
    refine ⟨_, (run_symbol (link_hasStorage k) rfl rfl).2 ⟨_, .getGlobal rfl,
      (run_word (link_hasStorage k) (show StoreOp.of _ = some .plus from rfl)).2
        ⟨{ s.toMachine with stack := .int (n + s'.world.cell x) :: st' }, ?_,
        (run_symbol (link_hasStorage k) rfl rfl).2 ⟨_, .setGlobal rfl trivial, rfl⟩⟩⟩,
      .ok rfl ⟨⟨hRest, hs.machines.frames.symm, hs.machines.world.store hApart hx hn⟩, hs.env.flip⟩⟩
    have hOwns : StoreOp.plus.owns (s.world.globals (factorUserName x) :: s.stack) = true := by
      rw [hBoth]
      rfl
    rw [if_pos hOwns]
    exact .plus hBoth

variable (defs B' ρ) in
/-- The accesses of the narrow program, where the words of the wide one may nest one deeper. -/
theorem narrow_exchanges (hB : SumsApart B) (hDefs : HasAddresses N defs') (hApart : VariablesApart N)
    (k : Nat) : (narrowing N α).Exchanges (SameCells N ρ) ((B.withStorage (cellsOnly N)).link defs k)
      ((B'.withStorage anything).link defs' (k + 1)) := by
  intro a b hAccess call call' s s' hs out hRun
  cases hAccess with
  | fetch hx => exact fetch_wide hDefs hx k hs hRun
  | store hx => exact store_wide hDefs hApart hx k hs hRun
  | plusStore hx => exact plusStore_wide hB hDefs hApart hx k hs hRun

variable (B defs B' ρ) in
theorem wide_exchanges (hDefs : HasAddresses N defs') (hApart : VariablesApart N) (k : Nat) :
    (narrowing N α).flip.Exchanges (fun w' w => SameCells N ρ w w') ((B'.withStorage (cellsOnly N)).link defs' k)
      ((B.withStorage anything).link defs k) := by
  intro b a hAccess call' call s' s hs out hRun
  have hStates : (narrowing N α).States (SameCells N ρ) s s' := hs.flip
  cases hAccess with
  | fetch hx => exact fetch_narrow hDefs hx k hStates hRun
  | store hx => exact store_narrow hDefs hApart hx k hStates hRun
  | plusStore hx => exact plusStore_narrow hDefs hApart hx k hStates hRun

end Exchanges

end FactorForth.Correctness
