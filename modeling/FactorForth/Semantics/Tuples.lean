import FactorForth.Library.Inheritance
import FactorForth.Semantics.Linking
import FactorForth.Compiler.EmitItems

/-! Factor's tuples, as its documentation has them: `TUPLE:` declares a class below another, `boa`
fills the effective slots from the stack, the readers and setters of a slot work on every tuple that
has it, and a class that is declared again reshapes its instances. -/

namespace FactorForth.Semantics
open FactorForth.Library FactorForth.Compiler

inductive TupleObj (α : Type) where
  | class_ (name : String)
  | tuple (address : Nat)
  | other (a : α)

structure Tuple (α : Type) where
  class_ : String
  slots : List (String × Value (TupleObj α))

structure Heap (α W : Type) where
  tuples : List (Tuple α)
  rest : W

abbrev TupleMachine (α W : Type) : Type := Machine (TupleObj α) (Heap α W)

variable {α W : Type}

/-- A change of the stack and of the tuples. -/
def Machine.upd (m : TupleMachine α W) (stack : List (Value (TupleObj α))) (tuples : List (Tuple α)) :
    TupleMachine α W :=
  { m with stack := stack, world := { m.world with tuples := tuples } }

abbrev Machine.tuples (m : TupleMachine α W) : List (Tuple α) := m.world.tuples

@[simp] theorem upd_stack (m : TupleMachine α W) (stack : List (Value (TupleObj α)))
    (tuples : List (Tuple α)) : (m.upd stack tuples).stack = stack := rfl

@[simp] theorem upd_tuples (m : TupleMachine α W) (stack : List (Value (TupleObj α)))
    (tuples : List (Tuple α)) : (m.upd stack tuples).tuples = tuples := rfl

/-- A new value in a slot. -/
def Tuple.put (t : Tuple α) (s : String) (v : Value (TupleObj α)) : Tuple α :=
  { t with slots := t.slots.map fun p => if p.1 = s then (s, v) else p }

def pushClass (name : String) (m m' : TupleMachine α W) : Prop :=
  m' = m.upd (.obj (.class_ name) :: m.stack) m.tuples

/-- `boa ( slots... class -- tuple )`. -/
def boa (T : Nodes String String) (m m' : TupleMachine α W) : Prop :=
  ∃ name slots vs st, m.stack = .obj (.class_ name) :: (vs.reverse ++ st) ∧
    Nodes.Effective T name slots ∧ vs.length = slots.length ∧
    m' = m.upd (.obj (.tuple m.tuples.length) :: st) (m.tuples ++ [⟨name, slots.zip vs⟩])

/-- `slot>> ( tuple -- value )`. -/
def readSlot (s : String) (m m' : TupleMachine α W) : Prop :=
  ∃ a st t v, m.stack = .obj (.tuple a) :: st ∧ m.tuples[a]? = some t ∧ t.slots.lookup s = some v ∧
    m' = m.upd (v :: st) m.tuples

/-- `>>slot ( tuple value -- tuple )`. -/
def setSlot (s : String) (m m' : TupleMachine α W) : Prop :=
  ∃ a st t v, m.stack = v :: .obj (.tuple a) :: st ∧ m.tuples[a]? = some t ∧
    (t.slots.lookup s).isSome = true ∧
    m' = m.upd (.obj (.tuple a) :: st) (m.tuples.set a (t.put s v))

/-- The predicate of a class `( object -- ? )`. -/
def pushInstance (T : Nodes String String) (name : String) (m m' : TupleMachine α W) : Prop :=
  ∃ x st b, m.stack = x :: st ∧ m' = m.upd (.bool b :: st) m.tuples ∧
    (b = true ↔ ∃ a t, x = .obj (.tuple a) ∧ m.tuples[a]? = some t ∧ Nodes.Descends T name t.class_)

def swapTop (m m' : TupleMachine α W) : Prop :=
  ∃ x y st, m.stack = x :: y :: st ∧ m' = m.upd (y :: x :: st) m.tuples

/-- The slots that some class declares. -/
def slotNames (T : Nodes String String) : List String := T.flatMap fun p => p.2.own

/-- The words that come with tuples, in a machine with these classes. A word is what the form that
defined it last makes of it. Each slot has a reader, a writer, a setter and a changer; where two of
these share a name, the name may be either. -/
def Vm.withTuples (V : Vm (TupleObj α) (Heap α W)) (T : Nodes String String)
    (defs : String → Option Line) : Vm (TupleObj α) (Heap α W) :=
  { V with
    word := fun t =>
      match t with
      | .userDefined n =>
        match defs n with
        | some (.tuple name _ _) => if n = name then pushClass name else pushInstance T name
        | _ => V.word t
      | .builtin "kernel" "swap" => swapTop
      | t => V.word t
    name := fun n m m' =>
      n = "boa" ∧ boa T m m' ∨ (∃ s ∈ slotNames T, n = s ++ ">>" ∧ readSlot s m m') ∨
        (∃ s ∈ slotNames T, n = ">>" ++ s ∧ setSlot s m m') ∨
        ((n ≠ "boa" ∧ ∀ s ∈ slotNames T, n ≠ s ++ ">>" ∧ n ≠ ">>" ++ s) ∨
          ∃ s ∈ slotNames T, n = s ++ "<<" ∨ n = "change-" ++ s) ∧ V.name n m m' }

/-- No two accessors of these slots share a name. -/
def AccessorsApart (slots : List String) : Prop :=
  ∀ s ∈ slots, ∀ s' ∈ slots, s ++ ">>" ≠ ">>" ++ s' ∧ s ++ ">>" ≠ "change-" ++ s' ∧
    ">>" ++ s ≠ s' ++ "<<"

instance (slots : List String) : Decidable (AccessorsApart slots) :=
  inferInstanceAs (Decidable (∀ s ∈ slots, ∀ s' ∈ slots, _ ∧ _))

/-- An instance after a class was declared again: it has the effective slots, the values of those it
had, and `f` in the others. -/
def Reshaped (T : Nodes String String) (t t' : Tuple α) : Prop :=
  t'.class_ = t.class_ ∧ ∃ slots, Nodes.Effective T t.class_ slots ∧
    t'.slots = slots.map fun s => (s, (t.slots.lookup s).getD (.bool false))

/-! Names by their ends. -/

theorem ne_of_head {a b : String} {x y : Char} (ha : a.toList.head? = some x)
    (hb : b.toList.head? = some y) (h : x ≠ y) : a ≠ b := by
  rintro rfl
  rw [ha] at hb
  exact h (Option.some.inj hb)

theorem ne_of_last {a b : String} {x y : Char} (ha : a.toList.getLast? = some x)
    (hb : b.toList.getLast? = some y) (h : x ≠ y) : a ≠ b := by
  rintro rfl
  rw [ha] at hb
  exact h (Option.some.inj hb)

theorem head_append (a s : String) {x : Char} (h : a.toList.head? = some x) :
    (a ++ s).toList.head? = some x := by
  rw [String.toList_append, List.head?_append, h]
  rfl

theorem last_append (s a : String) {x : Char} (h : a.toList.getLast? = some x) :
    (s ++ a).toList.getLast? = some x := by
  rw [String.toList_append, List.getLast?_append, h]
  rfl

section Names
variable (V : Vm (TupleObj α) (Heap α W)) {T : Nodes String String} (defs : String → Option Line)
variable {m m' : TupleMachine α W}

theorem name_boa : (V.withTuples T defs).name "boa" m m' ↔ boa T m m' := by
  have hReader : ∀ s : String, "boa" ≠ s ++ ">>" := fun s =>
    ne_of_last rfl (last_append s ">>" rfl) (by decide : 'a' ≠ '>')
  have hSetter : ∀ s : String, "boa" ≠ ">>" ++ s := fun s =>
    ne_of_head rfl (head_append ">>" s rfl) (by decide : 'b' ≠ '>')
  have hWriter : ∀ s : String, "boa" ≠ s ++ "<<" := fun s =>
    ne_of_last rfl (last_append s "<<" rfl) (by decide : 'a' ≠ '<')
  have hChanger : ∀ s : String, "boa" ≠ "change-" ++ s := fun s =>
    ne_of_head rfl (head_append "change-" s rfl) (by decide : 'b' ≠ 'c')
  constructor
  · rintro (⟨-, h⟩ | ⟨s, -, hs, -⟩ | ⟨s, -, hs, -⟩ | ⟨⟨h, -⟩ | ⟨s, -, hs | hs⟩, -⟩)
    · exact h
    · exact absurd hs (hReader s)
    · exact absurd hs (hSetter s)
    · exact absurd rfl h
    · exact absurd hs (hWriter s)
    · exact absurd hs (hChanger s)
  · exact fun h => .inl ⟨rfl, h⟩

variable {s : String} (hs : s ∈ slotNames T) (hApart : AccessorsApart (slotNames T))
include hs hApart

theorem name_reader : (V.withTuples T defs).name (s ++ ">>") m m' ↔ readSlot s m m' := by
  constructor
  · rintro (⟨h, -⟩ | ⟨s', -, h, hRead⟩ | ⟨s', hs', h, -⟩ | ⟨⟨-, h⟩ | ⟨s', hs', h | h⟩, -⟩)
    · exact absurd h.symm (ne_of_last rfl (last_append s ">>" rfl) (by decide : 'a' ≠ '>'))
    · rwa [(String.append_left_inj _).mp h]
    · exact absurd h (hApart s hs s' hs').1
    · exact absurd rfl (h s hs).1
    · exact absurd h (ne_of_last (last_append s ">>" rfl) (last_append s' "<<" rfl)
        (by decide : '>' ≠ '<'))
    · exact absurd h (hApart s hs s' hs').2.1
  · exact fun h => .inr (.inl ⟨s, hs, rfl, h⟩)

theorem name_setter : (V.withTuples T defs).name (">>" ++ s) m m' ↔ setSlot s m m' := by
  constructor
  · rintro (⟨h, -⟩ | ⟨s', hs', h, -⟩ | ⟨s', -, h, hSet⟩ | ⟨⟨-, h⟩ | ⟨s', hs', h | h⟩, -⟩)
    · exact absurd h.symm (ne_of_head rfl (head_append ">>" s rfl) (by decide : 'b' ≠ '>'))
    · exact absurd h.symm (hApart s' hs' s hs).1
    · rwa [(String.append_right_inj _).mp h]
    · exact absurd rfl (h s hs).2
    · exact absurd h (hApart s hs s' hs').2.2
    · exact absurd h (ne_of_head (head_append ">>" s rfl) (head_append "change-" s' rfl)
        (by decide : '>' ≠ 'c'))
  · exact fun h => .inr (.inr (.inl ⟨s, hs, rfl, h⟩))

end Names

/-! Calls of words that are made of changes of the machine. -/

section Calls
variable {Obj World : Type} {m m' : Machine Obj World}

theorem called_pure : called (pure ⟨⟩ : Command Obj World PUnit) m m' ↔ m' = m := by
  constructor
  · rintro ⟨env, h⟩
    cases h
    rfl
  · rintro rfl
    exact ⟨[], rfl⟩

theorem called_onMachine (r : Machine Obj World → Machine Obj World → Prop)
    (c : Command Obj World PUnit) :
    called (onMachine r >>= fun _ => c) m m' ↔ ∃ m₁, r m m₁ ∧ called c m₁ m' := by
  constructor
  · rintro ⟨env, h⟩
    obtain ⟨_, ⟨m₁, env₁⟩, ⟨t, ⟨hr, hEnv⟩, hOut⟩, hc⟩ := Cmd.bind_ok.mp h
    cases hOut
    obtain rfl : env₁ = [] := hEnv
    exact ⟨m₁, hr, env, hc⟩
  · rintro ⟨m₁, hr, env, hc⟩
    exact ⟨env, Cmd.bind_ok.mpr ⟨⟨⟩, ⟨m₁, []⟩, ⟨⟨m₁, []⟩, ⟨hr, rfl⟩, rfl⟩, hc⟩⟩

theorem called_drop (V : Vm Obj World) (call : Caller Obj World) (c : Command Obj World PUnit) :
    called (stepPrim V call .drop >>= fun _ => c) m m' ↔
      ∃ v st, m.stack = v :: st ∧ called c { m with stack := st } m' := by
  have hStep : stepPrim V call .drop = pop >>= fun _ => pure ⟨⟩ := rfl
  constructor
  · rintro ⟨env, h⟩
    rw [hStep, Cmd.bind_assoc] at h
    cases hStack : m.stack with
    | nil => exact absurd h (pop_bind_nil hStack _ _)
    | cons v st =>
      rw [pop_bind hStack, Cmd.pure_bind] at h
      exact ⟨v, st, rfl, env, h⟩
  · rintro ⟨v, st, hStack, env, h⟩
    refine ⟨env, ?_⟩
    rw [hStep, Cmd.bind_assoc, pop_bind hStack, Cmd.pure_bind]
    exact h

end Calls

/-! The bodies of the words of a class. -/

section Bodies
variable (V : Vm (TupleObj α) (Heap α W)) {T : Nodes String String} {defs : String → Option Line}
variable (k : Nat) {m m' : TupleMachine α W} {cls : String} {parent : Option String}
variable {own : List String}

theorem link_word_tuple {w : String} (h : defs w = some (.tuple cls parent own)) :
    ((V.withTuples T defs).link defs k).word (.userDefined w) =
      if w = cls then pushClass cls else pushInstance T cls := by
  have hWord : ((V.withTuples T defs).link defs k).word (.userDefined w) =
      (V.withTuples T defs).word (.userDefined w) := by
    cases k with
    | zero =>
      show (((defs w).bind (lineCode _)).map _).getD _ = _
      rw [h]
      rfl
    | succ k =>
      show (((defs w).bind (lineCode _)).map _).getD _ = _
      rw [h]
      rfl
  rw [hWord]
  show (match defs w with
    | some (.tuple name _ _) => if w = name then pushClass name else pushInstance T name
    | _ => V.word (.userDefined w)) = _
  rw [h]

theorem link_swap : ((V.withTuples T defs).link defs k).reference (.builtin "kernel" "swap") =
    onMachine swapTop := by
  rw [link_reference _ _ _ rfl]
  rfl

theorem constructor_called (h : defs cls = some (.tuple cls parent own)) :
    called (run ((V.withTuples T defs).link defs k) [userTok cls, .name "boa"]) m m' ↔
      ∃ slots vs st, Nodes.Effective T cls slots ∧ vs.length = slots.length ∧
        m.stack = vs.reverse ++ st ∧
        m' = m.upd (.obj (.tuple m.tuples.length) :: st) (m.tuples ++ [⟨cls, slots.zip vs⟩]) := by
  have hClass : ((V.withTuples T defs).link defs k).reference (.userDefined cls) =
      onMachine (pushClass cls) := by
    show onMachine (((V.withTuples T defs).link defs k).word (.userDefined cls)) = _
    rw [link_word_tuple V k h, if_pos rfl]
  rw [run_cons, run_cons, run_nil]
  simp only [stepTok, userTok, hClass, called_onMachine, called_pure, link_name, name_boa]
  constructor
  · rintro ⟨m₁, rfl, m₂, ⟨name, slots, vs, st, hStack, hSlots, hLength, rfl⟩, rfl⟩
    rw [upd_stack, List.cons.injEq] at hStack
    obtain ⟨hName, hStack⟩ := hStack
    cases hName
    exact ⟨slots, vs, st, hSlots, hLength, hStack, rfl⟩
  · rintro ⟨slots, vs, st, hSlots, hLength, hStack, rfl⟩
    refine ⟨_, rfl, _, ⟨cls, slots, vs, st, ?_, hSlots, hLength, rfl⟩, rfl⟩
    rw [upd_stack, hStack]

variable {s : String} (hs : s ∈ slotNames T) (hApart : AccessorsApart (slotNames T))
include hs hApart

theorem getter_called :
    called (run ((V.withTuples T defs).link defs k) [.name (s ++ ">>")]) m m' ↔ readSlot s m m' := by
  rw [run_cons, run_nil]
  simp only [stepTok, called_onMachine, called_pure, link_name, name_reader V defs hs hApart]
  constructor
  · rintro ⟨m₁, h, rfl⟩
    exact h
  · exact fun h => ⟨m', h, rfl⟩

theorem setter_called :
    called (run ((V.withTuples T defs).link defs k) [.name (">>" ++ s)]) m m' ↔ setSlot s m m' := by
  rw [run_cons, run_nil]
  simp only [stepTok, called_onMachine, called_pure, link_name, name_setter V defs hs hApart]
  constructor
  · rintro ⟨m₁, h, rfl⟩
    exact h
  · exact fun h => ⟨m', h, rfl⟩

theorem store_called :
    called (run ((V.withTuples T defs).link defs k)
        [.word (.builtin "kernel" "swap"), .name (">>" ++ s), .prim .drop]) m m' ↔
      ∃ a st t v, m.stack = .obj (.tuple a) :: v :: st ∧ m.tuples[a]? = some t ∧
        (t.slots.lookup s).isSome = true ∧ m' = m.upd st (m.tuples.set a (t.put s v)) := by
  rw [run_cons, run_cons, run_cons, run_nil]
  simp only [stepTok, link_swap, called_onMachine, called_drop, called_pure, link_name,
    name_setter V defs hs hApart]
  constructor
  · rintro ⟨m₁, ⟨x, y, st, hStack, rfl⟩, m₂, ⟨a, st', t, v, hPair, hTuple, hSlot, rfl⟩, _, _, hTop, rfl⟩
    rw [upd_stack] at hPair hTop
    cases hPair
    cases hTop
    exact ⟨a, st, t, y, hStack, hTuple, hSlot, rfl⟩
  · rintro ⟨a, st, t, v, hStack, hTuple, hSlot, rfl⟩
    exact ⟨_, ⟨_, _, _, hStack, rfl⟩, _, ⟨a, st, t, v, rfl, hTuple, hSlot, rfl⟩, _, st, rfl, rfl⟩

end Bodies

end FactorForth.Semantics
