import FactorForth.Library.LittleEndian
import FactorForth.Semantics.Simulation
import Mathlib.Logic.Function.Basic

/-! Where variables are kept: the globals of Factor, and the eight bytes that `<variable>` allots to a word
that leaves their address. The other words do as they do in a machine that is given. -/

namespace FactorForth.Semantics
open FactorForth.Library FactorForth.Compiler
variable {α ω : Type}

/-- A symbol, the address of the bytes of a variable, and what the other words make. -/
inductive Thing (α : Type) where
  | symbol (s : String)
  | cell (x : String)
  | other (o : α)

/-- A global that nobody has set is `f`. -/
structure Storage (α ω : Type) where
  globals : String → Value (Thing α)
  cells : String → List UInt8
  rest : ω

namespace Storage

def setGlobal (w : Storage α ω) (s : String) (v : Value (Thing α)) : Storage α ω :=
  { w with globals := Function.update w.globals s v }

def setCell (w : Storage α ω) (x : String) (n : Int) : Storage α ω :=
  { w with cells := Function.update w.cells x (bytesOf 8 n) }

/-- The unsigned number in the bytes of a variable. -/
def cell (w : Storage α ω) (x : String) : Int := valueOf (w.cells x)

@[simp] theorem globals_setGlobal (w : Storage α ω) (s : String) (v : Value (Thing α)) :
    (w.setGlobal s v).globals s = v := Function.update_self _ _ _

theorem globals_setGlobal_ne (w : Storage α ω) {s t : String} (h : t ≠ s) (v : Value (Thing α)) :
    (w.setGlobal s v).globals t = w.globals t := Function.update_of_ne h _ _

@[simp] theorem cells_setCell (w : Storage α ω) (x : String) (n : Int) :
    (w.setCell x n).cells x = bytesOf 8 n := Function.update_self _ _ _

theorem cells_setCell_ne (w : Storage α ω) {x y : String} (h : y ≠ x) (n : Int) :
    (w.setCell x n).cells y = w.cells y := Function.update_of_ne h _ _

theorem cell_setCell_ne (w : Storage α ω) {x y : String} (h : y ≠ x) (n : Int) :
    (w.setCell x n).cell y = w.cell y := by
  unfold cell
  rw [w.cells_setCell_ne h]

theorem cell_setCell (w : Storage α ω) (x : String) {n : Int} (hLow : 0 ≤ n) (hHigh : n < 2 ^ 64) :
    (w.setCell x n).cell x = n := by
  unfold cell
  rw [w.cells_setCell, valueOf_bytesOf]
  exact Int.emod_eq_of_lt hLow hHigh

end Storage

inductive StoreOp where
  | getGlobal
  | setGlobal
  | plus
  | fetch
  | store
  | plusStore
deriving DecidableEq, Repr

namespace StoreOp

def of : Target → Option StoreOp
  | .builtin "namespaces" "get-global" => some .getGlobal
  | .builtin "namespaces" "set-global" => some .setGlobal
  | .builtin "math" "+" => some .plus
  | .qualifiedBuiltin "forth.runtime" "@" => some .fetch
  | .qualifiedBuiltin "forth.runtime" "nf-!" => some .store
  | .qualifiedBuiltin "forth.runtime" "nf-+!" => some .plusStore
  | _ => none

/-- The operands that are no business of the other words. -/
def owns : StoreOp → List (Value (Thing α)) → Bool
  | .getGlobal, .obj (.symbol _) :: _ => true
  | .setGlobal, .obj (.symbol _) :: _ => true
  | .plus, .int _ :: .int _ :: _ => true
  | .fetch, .obj (.cell _) :: _ => true
  | .store, .obj (.cell _) :: _ => true
  | .plusStore, .obj (.cell _) :: _ => true
  | _, _ => false

/-- The steps on those operands, where `ok` says what may be stored. A value that is no integer does not go
into a cell. -/
inductive Step (ok : Thing α → Value (Thing α) → Prop) :
    StoreOp → Machine (Thing α) (Storage α ω) → Machine (Thing α) (Storage α ω) → Prop
  | getGlobal {m : Machine (Thing α) (Storage α ω)} {s : String} {st : List (Value (Thing α))}
      (h : m.stack = .obj (.symbol s) :: st) :
      Step ok .getGlobal m { m with stack := m.world.globals s :: st }
  | setGlobal {m : Machine (Thing α) (Storage α ω)} {s : String} {v : Value (Thing α)}
      {st : List (Value (Thing α))} (h : m.stack = .obj (.symbol s) :: v :: st) (hOk : ok (.symbol s) v) :
      Step ok .setGlobal m { m with stack := st, world := m.world.setGlobal s v }
  | plus {m : Machine (Thing α) (Storage α ω)} {a b : Int} {st : List (Value (Thing α))}
      (h : m.stack = .int b :: .int a :: st) : Step ok .plus m { m with stack := .int (a + b) :: st }
  | fetch {m : Machine (Thing α) (Storage α ω)} {x : String} {st : List (Value (Thing α))}
      (h : m.stack = .obj (.cell x) :: st) :
      Step ok .fetch m { m with stack := .int (m.world.cell x) :: st }
  | store {m : Machine (Thing α) (Storage α ω)} {x : String} {n : Int} {st : List (Value (Thing α))}
      (h : m.stack = .obj (.cell x) :: .int n :: st) (hOk : ok (.cell x) (.int n)) :
      Step ok .store m { m with stack := st, world := m.world.setCell x n }
  | plusStore {m : Machine (Thing α) (Storage α ω)} {x : String} {n : Int} {st : List (Value (Thing α))}
      (h : m.stack = .obj (.cell x) :: .int n :: st) (hOk : ok (.cell x) (.int (n + m.world.cell x))) :
      Step ok .plusStore m { m with stack := st, world := m.world.setCell x (n + m.world.cell x) }

end StoreOp

/-- A machine with the storage of variables; `ok` says what may be stored without the run being stopped. -/
def Vm.withStorage (B : Vm (Thing α) (Storage α ω)) (ok : Thing α → Value (Thing α) → Prop) :
    Vm (Thing α) (Storage α ω) :=
  { B with
    word := fun t m m' =>
      match StoreOp.of t with
      | some op => if op.owns m.stack then op.Step ok m m' else B.word t m m'
      | none => B.word t m m'
    symbol := .symbol }

theorem withStorage_word {B : Vm (Thing α) (Storage α ω)} {ok : Thing α → Value (Thing α) → Prop} {t : Target}
    {op : StoreOp} (h : StoreOp.of t = some op) (m m' : Machine (Thing α) (Storage α ω)) :
    (B.withStorage ok).word t m m' ↔ if op.owns m.stack then op.Step ok m m' else B.word t m m' := by
  unfold Vm.withStorage
  dsimp only
  rw [h]

theorem withStorage_other {B : Vm (Thing α) (Storage α ω)} {ok : Thing α → Value (Thing α) → Prop} {t : Target}
    (h : StoreOp.of t = none) : (B.withStorage ok).word t = B.word t := by
  unfold Vm.withStorage
  dsimp only
  rw [h]

/-- The machine as it is: anything may be stored. -/
def anything (_ : Thing α) (_ : Value (Thing α)) : Prop := True

/-! Two machines with their storages. -/

/-- What a comparison needs so that the storage words do the like on both sides. -/
structure Stored (P : Pairing (Thing α) (Thing α)) (W : Storage α ω → Storage α ω → Prop) : Prop where
  same : ∀ o o', P.obj o o' → o = o'
  global : ∀ s w w', P.obj (.symbol s) (.symbol s) → W w w' → P.Val (w.globals s) (w'.globals s)
  setGlobal : ∀ s w w' v v', P.obj (.symbol s) (.symbol s) → W w w' → P.Val v v' →
    W (w.setGlobal s v) (w'.setGlobal s v')
  cell : ∀ x w w', P.obj (.cell x) (.cell x) → W w w' → w.cell x = w'.cell x
  setCell : ∀ x w w' n, P.obj (.cell x) (.cell x) → W w w' → W (w.setCell x n) (w'.setCell x n)

section Stored
variable {P : Pairing (Thing α) (Thing α)} {W : Storage α ω → Storage α ω → Prop}
  {m m' n : Machine (Thing α) (Storage α ω)}

theorem Stored.flip (h : Stored P W) : Stored P.flip fun w' w => W w w' where
  same o' o hObj := (h.same o o' hObj).symm
  global s w' w hObj hW := (h.global s w w' hObj hW).flip
  setGlobal s w' w v' v hObj hW hVal := h.setGlobal s w w' v v' hObj hW hVal.flip
  cell x w' w hObj hW := (h.cell x w w' hObj hW).symm
  setCell x w' w n hObj hW := h.setCell x w w' n hObj hW

theorem Stored.obj_like (h : Stored P W) {o : Thing α} {v' : Value (Thing α)} (hVal : P.Val (.obj o) v') :
    v' = .obj o ∧ P.obj o o := by
  cases hVal with
  | obj hObj =>
    obtain rfl := h.same _ _ hObj
    exact ⟨rfl, hObj⟩

theorem int_like {n : Int} {v' : Value (Thing α)} (hVal : P.Val (.int n) v') : v' = .int n := by
  cases hVal
  rfl

theorem Stored.owns_like (h : Stored P W) {op : StoreOp} {st st' : List (Value (Thing α))}
    (hStack : List.Forall₂ P.Val st st') (hOwns : op.owns st = true) : op.owns st' = true := by
  unfold StoreOp.owns at hOwns
  split at hOwns
  · obtain ⟨v', st', hVal, -, rfl⟩ := List.forall₂_cons_left_iff.1 hStack
    rw [(h.obj_like hVal).1]
    rfl
  · obtain ⟨v', st', hVal, -, rfl⟩ := List.forall₂_cons_left_iff.1 hStack
    rw [(h.obj_like hVal).1]
    rfl
  · obtain ⟨v', st', hVal, hRest, rfl⟩ := List.forall₂_cons_left_iff.1 hStack
    obtain ⟨u', st', hNext, -, rfl⟩ := List.forall₂_cons_left_iff.1 hRest
    rw [int_like hVal, int_like hNext]
    rfl
  · obtain ⟨v', st', hVal, -, rfl⟩ := List.forall₂_cons_left_iff.1 hStack
    rw [(h.obj_like hVal).1]
    rfl
  · obtain ⟨v', st', hVal, -, rfl⟩ := List.forall₂_cons_left_iff.1 hStack
    rw [(h.obj_like hVal).1]
    rfl
  · obtain ⟨v', st', hVal, -, rfl⟩ := List.forall₂_cons_left_iff.1 hStack
    rw [(h.obj_like hVal).1]
    rfl
  · cases hOwns

theorem Stored.step_like (h : Stored P W) (hm : P.Machines W m m') {op : StoreOp}
    {ok : Thing α → Value (Thing α) → Prop} (hStep : op.Step ok m n) :
    ∃ n', op.Step anything m' n' ∧ P.Machines W n n' := by
  cases hStep with
  | getGlobal hStack =>
    obtain ⟨v', st', hStack', hVal, hRest⟩ := hm.top hStack
    obtain ⟨rfl, hObj⟩ := h.obj_like hVal
    exact ⟨_, .getGlobal hStack', .cons (h.global _ _ _ hObj hm.world) hRest, hm.frames, hm.world⟩
  | setGlobal hStack hOk =>
    obtain ⟨v', st', hStack', hVal, hRest⟩ := hm.top hStack
    obtain ⟨rfl, hObj⟩ := h.obj_like hVal
    obtain ⟨u', st', hNext, hBelow, rfl⟩ := List.forall₂_cons_left_iff.1 hRest
    exact ⟨_, .setGlobal hStack' trivial, hBelow, hm.frames, h.setGlobal _ _ _ _ _ hObj hm.world hNext⟩
  | plus hStack =>
    obtain ⟨v', st', hStack', hVal, hRest⟩ := hm.top hStack
    obtain ⟨u', st', hNext, hBelow, rfl⟩ := List.forall₂_cons_left_iff.1 hRest
    rw [int_like hVal, int_like hNext] at hStack'
    exact ⟨_, .plus hStack', .cons (.int _) hBelow, hm.frames, hm.world⟩
  | fetch hStack =>
    obtain ⟨v', st', hStack', hVal, hRest⟩ := hm.top hStack
    obtain ⟨rfl, hObj⟩ := h.obj_like hVal
    rw [h.cell _ _ _ hObj hm.world]
    exact ⟨_, .fetch hStack', .cons (.int _) hRest, hm.frames, hm.world⟩
  | store hStack hOk =>
    obtain ⟨v', st', hStack', hVal, hRest⟩ := hm.top hStack
    obtain ⟨rfl, hObj⟩ := h.obj_like hVal
    obtain ⟨u', st', hNext, hBelow, rfl⟩ := List.forall₂_cons_left_iff.1 hRest
    rw [int_like hNext] at hStack'
    exact ⟨_, .store hStack' trivial, hBelow, hm.frames, h.setCell _ _ _ _ hObj hm.world⟩
  | plusStore hStack hOk =>
    obtain ⟨v', st', hStack', hVal, hRest⟩ := hm.top hStack
    obtain ⟨rfl, hObj⟩ := h.obj_like hVal
    obtain ⟨u', st', hNext, hBelow, rfl⟩ := List.forall₂_cons_left_iff.1 hRest
    rw [int_like hNext] at hStack'
    rw [h.cell _ _ _ hObj hm.world]
    exact ⟨_, .plusStore hStack' trivial, hBelow, hm.frames, h.setCell _ _ _ _ hObj hm.world⟩

/-- Machines that cannot tell two programs apart cannot do so with their storage either. -/
theorem Stored.hidden (h : Stored P W) {B B' : Vm (Thing α) (Storage α ω)} (hB : P.Hidden W B B')
    (hSymbol : ∀ s, P.plain (.symbol s) → P.obj (.symbol s) (.symbol s))
    (ok : Thing α → Value (Thing α) → Prop) :
    P.Hidden W (B.withStorage ok) (B'.withStorage anything) := by
  refine ⟨hB.quot, hB.prim, fun t ht => ?_, hB.name, hB.letForm, hSymbol, hB.str, hB.float, hB.zero, hB.equal⟩
  intro m m' hm n hStep
  have hOther := hB.word t ht m m' hm n
  cases hOp : StoreOp.of t with
  | none =>
    rw [withStorage_other hOp] at hStep ⊢
    exact hOther hStep
  | some op =>
    rw [withStorage_word hOp] at hStep
    simp only [withStorage_word hOp]
    by_cases hOwns : op.owns m.stack = true
    · rw [if_pos hOwns] at hStep
      simp only [h.owns_like hm.stack hOwns, if_true]
      exact h.step_like hm hStep
    · rw [if_neg hOwns] at hStep
      have hNot : op.owns m'.stack = false :=
        eq_false_of_ne_true fun hOwns' => hOwns (h.flip.owns_like hm.flip.stack hOwns')
      simp only [hNot, Bool.false_eq_true, if_false]
      exact hOther hStep

end Stored

end FactorForth.Semantics
