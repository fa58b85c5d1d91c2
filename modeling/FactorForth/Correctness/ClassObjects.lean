import FactorForth.Correctness.ClassTables

/-! The objects of a session: what the words of a class do to tuples once its source is loaded, and what
the slots of an object hold after any uses of these words. -/

namespace FactorForth.Correctness
open FactorForth.Library FactorForth.Compiler FactorForth.Semantics

/-- The form that defined a word last. -/
def latest (rawWords : String → List String) (ir : Ir) (w : String) : Option Line :=
  (ir.filter fun l => (Line.words rawWords l).contains w).getLast?

section Latest
variable {rawWords : String → List String}

theorem latest_append (ir ir' : Ir) (w : String) :
    latest rawWords (ir ++ ir') w = (latest rawWords ir' w).or (latest rawWords ir w) := by
  rw [latest, List.filter_append, List.getLast?_append]
  rfl

theorem latest_none {ir : Ir} {w : String} (h : w ∉ ir.flatMap (Line.words rawWords)) :
    latest rawWords ir w = none := by
  have hNil : (ir.filter fun l => (Line.words rawWords l).contains w) = [] := by
    rw [List.filter_eq_nil_iff]
    intro l hl hw
    exact h (List.mem_flatMap.mpr ⟨l, hl, by simpa using hw⟩)
  rw [latest, hNil]
  rfl

/-- Where the words of a source are apart, each form defines its own. -/
theorem latest_of_nodup {ir : Ir} (hNodup : (ir.flatMap (Line.words rawWords)).Nodup) {l : Line}
    (hl : l ∈ ir) {w : String} (hw : w ∈ Line.words rawWords l) : latest rawWords ir w = some l := by
  obtain ⟨front, back, rfl⟩ := List.append_of_mem hl
  rw [List.flatMap_append, List.flatMap_cons] at hNodup
  have hBack : w ∉ back.flatMap (Line.words rawWords) := by
    have hApart := (List.nodup_append.mp (List.nodup_append.mp hNodup).2.1).2.2
    exact fun hIn => hApart w hw w hIn rfl
  have hLine : latest rawWords [l] w = some l := by
    unfold latest
    rw [List.filter_cons_of_pos (by simpa using hw)]
    rfl
  have hOne : l :: back = [l] ++ back := rfl
  rw [hOne, latest_append, latest_append, latest_none hBack, hLine]
  rfl

end Latest

variable {α W : Type}

/-- The machine after the compiles of a session are loaded, where calls nest `k` deep at most. -/
def sessionVm (V : Vm (TupleObj α) (Heap α W)) (rawWords : String → List String) (es : List Eval)
    (T : Nodes String String) (k : Nat) : Vm (TupleObj α) (Heap α W) :=
  (V.withTuples T (latest rawWords (emitted es))).link (latest rawWords (emitted es)) (k + 1)

/-- A call of the word that references to this name are bound to. -/
def callWord (V : Vm (TupleObj α) (Heap α W)) (rawWords : String → List String) (es : List Eval)
    (T : Nodes String String) (k : Nat) (name : String) : TupleMachine α W → TupleMachine α W → Prop :=
  (sessionVm V rawWords es T k).word (.userDefined (factorUserName name))

/-- A class as it stands at the end of a session: its words are apart from the other words of its
compile, and no later compile defines one of them. -/
structure Current (rawWords : String → List String) (es before : List Eval) (e : Eval)
    (after : List Eval) (c : ClassDef) : Prop where
  split : es = before ++ e :: after
  declared : c ∈ classes e.items
  distinct : ((origins rawWords e).map Origin.word).Nodup
  kept : ∀ o ∈ after.flatMap (origins rawWords),
    o.word ∉ (classOrigins (lower c.name) (slotsOf e.sema.classSlots c)).map Origin.word

/-- What is asked of the compiles of a session: the flattened slots are those of the declarations so
far, and these declarations follow one another. -/
structure Orderly (rawWords : String → List String) (es : List Eval) : Prop where
  wide : ∀ e ∈ es, Wide e.sema
  slots : ∀ before e after, es = before ++ e :: after →
    ∀ k, e.sema.classSlots.lookup k = (tables (before ++ [e])).flat.lookup k
  distinct : ∀ e ∈ es, (registered e.sema.classSlots e.items).Nodup
  follow : Tables.FollowAll ⟨[], []⟩ (declarations es)
  names : NamesKept rawWords [] es
  accessors : AccessorsApart ((declarations es).flatMap slotsDeclared)

/-! Prefixes of a session. -/

theorem namesKept_prefix {rawWords : String → List String} {declared : List ClassDef}
    {es es' : List Eval} (h : NamesKept rawWords declared (es ++ es')) :
    NamesKept rawWords declared es := by
  induction es generalizing declared with
  | nil => trivial
  | cons e es ih => exact ⟨h.1, ih h.2⟩

theorem declarations_append (es es' : List Eval) :
    declarations (es ++ es') = declarations es ++ declarations es' := List.flatMap_append

theorem Orderly.prefix {rawWords : String → List String} {es es' : List Eval}
    (h : Orderly rawWords (es ++ es')) : Orderly rawWords es := by
  refine ⟨fun e he => h.wide e (List.mem_append_left _ he), fun before e after hSplit => ?_,
    fun e he => h.distinct e (List.mem_append_left _ he), ?_, namesKept_prefix h.names, ?_⟩
  · refine h.slots before e (after ++ es') ?_
    rw [hSplit, List.append_assoc]
    rfl
  · have hFollow := h.follow
    rw [declarations_append] at hFollow
    exact (Tables.followAll_append.mp hFollow).1
  · intro s hs s' hs'
    have hSub : ∀ r ∈ (declarations es).flatMap slotsDeclared,
        r ∈ (declarations (es ++ es')).flatMap slotsDeclared := by
      intro r hr
      rw [declarations_append, List.flatMap_append]
      exact List.mem_append_left _ hr
    exact h.accessors s (hSub s hs) s' (hSub s' hs')

/-! The classes that are loaded. -/

section Orderly
variable {rawWords : String → List String} {es : List Eval} (h : Orderly rawWords es)
include h

theorem Orderly.loaded : LoadsTo rawWords (emitted es) (tables es).nodes :=
  session_loads h.wide (by rintro p ⟨⟩) h.names (acceptAll_of_follow h.follow)

theorem Orderly.loaded_unique {T : Nodes String String} (hT : LoadsTo rawWords (emitted es) T) :
    T = (tables es).nodes := by
  refine Run.unique (fun T l T₁ T₂ h₁ h₂ => ?_) hT h.loaded
  unfold loadLine at h₁ h₂
  cases hNode : Line.node? l with
  | none =>
    rw [hNode] at h₁ h₂
    exact h₁.trans h₂.symm
  | some p =>
    rw [hNode] at h₁ h₂
    exact h₁.2.trans h₂.2.symm

theorem Orderly.agree : (tables es).Agree :=
  Tables.Agree.declareAll (by rintro k slots ⟨⟩) h.follow

theorem Orderly.accessorsApart : AccessorsApart (slotNames (tables es).nodes) := by
  have hSub : ∀ s ∈ slotNames (tables es).nodes, s ∈ (declarations es).flatMap slotsDeclared := by
    intro s hs
    obtain ⟨p, hp, hs⟩ := List.mem_flatMap.mp hs
    unfold tables at hp
    rw [← foldl_nodes] at hp
    rcases Dict.mem_foldl_insert hp with hNone | hNew
    · cases hNone
    · obtain ⟨c, hc, rfl⟩ := List.mem_map.mp hNew
      exact List.mem_flatMap.mpr ⟨c, hc, hs⟩
  exact fun s hs s' hs' => h.accessors s (hSub s hs) s' (hSub s' hs')

end Orderly

theorem effective_names {T : Nodes String String} {k : String} {slots : List String}
    (h : Nodes.Effective T k slots) : ∀ s ∈ slots, s ∈ slotNames T := by
  induction h with
  | root hNode => exact fun s hs => List.mem_flatMap.mpr ⟨_, Dict.mem_of_lookup hNode, hs⟩
  | child hNode _ ih =>
    intro s hs
    rcases List.mem_append.mp hs with hAbove | hOwn
    · exact ih s hAbove
    · exact List.mem_flatMap.mpr ⟨_, Dict.mem_of_lookup hNode, hOwn⟩

theorem declareAll_flat_other {t : Tables} {cs : List ClassDef} {k : String}
    (h : ∀ c ∈ cs, lower c.name ≠ k) : (cs.foldl Tables.declare t).flat.lookup k = t.flat.lookup k := by
  induction cs generalizing t with
  | nil => rfl
  | cons c cs ih =>
    rw [List.foldl_cons, ih fun c' hc' => h c' (List.mem_cons_of_mem _ hc')]
    exact Dict.lookup_insert_ne _ _ (h c List.mem_cons_self)

theorem declareAll_flat_some {t : Tables} {cs : List ClassDef} {k : String}
    (h : (∃ c ∈ cs, lower c.name = k) ∨ Dict.contains t.flat k = true) :
    Dict.contains (cs.foldl Tables.declare t).flat k = true := by
  induction cs generalizing t with
  | nil =>
    rcases h with ⟨c, hc, -⟩ | h
    · cases hc
    · exact h
  | cons c cs ih =>
    refine ih ?_
    have hStep : Dict.contains (t.declare c).flat k =
        (decide (lower c.name = k) || Dict.contains t.flat k) := Dict.contains_insert _ _ _ _
    rcases h with ⟨c', hc', hName⟩ | hOld
    · rcases List.mem_cons.mp hc' with rfl | hLater
      · rw [hStep, decide_eq_true hName, Bool.true_or]
        exact .inr rfl
      · exact .inl ⟨c', hLater, hName⟩
    · rw [hStep, hOld, Bool.or_true]
      exact .inr rfl

/-! The words of a current class. -/

section Current
variable {rawWords : String → List String} {es before after : List Eval} {e : Eval} {c : ClassDef}
variable (hOrderly : Orderly rawWords es) (h : Current rawWords es before e after c)
include hOrderly h

theorem Current.wide : Wide e.sema := by
  refine hOrderly.wide e ?_
  rw [h.split]
  simp

theorem Current.latest_eq {l : Line} (hl : l ∈ emitClass c e.sema) {w : String}
    (hw : w ∈ Line.words rawWords l) : latest rawWords (emitted es) w = some l := by
  have hWide := h.wide hOrderly
  have hWords := @declaration_words rawWords e hWide (.class_ c)
  have hOwn : w ∈ (classOrigins (lower c.name) (slotsOf e.sema.classSlots c)).map Origin.word := by
    rw [show classOrigins _ _ = Item.declaredOrigins rawWords e (.class_ c) from rfl, ← hWords]
    exact List.mem_flatMap.mpr ⟨l, hl, hw⟩
  have hAfter : w ∉ (emitted after).flatMap (Line.words rawWords) := by
    intro hIn
    obtain ⟨l', hl', hw'⟩ := List.mem_flatMap.mp hIn
    obtain ⟨e', he', hl'⟩ := List.mem_flatMap.mp hl'
    have hWide' : Wide e'.sema := by
      refine hOrderly.wide e' ?_
      rw [h.split]
      exact List.mem_append_right _ (List.mem_cons_of_mem _ he')
    have hWord : w ∈ e'.ir.flatMap (Line.words rawWords) := List.mem_flatMap.mpr ⟨l', hl', hw'⟩
    rw [ir_words hWide'] at hWord
    obtain ⟨o, ho, rfl⟩ := List.mem_map.mp hWord
    exact h.kept o (List.mem_flatMap.mpr ⟨e', he', ho⟩) hOwn
  have hHere : latest rawWords e.ir w = some l := by
    refine latest_of_nodup ?_ ?_ hw
    · rw [ir_words hWide]
      exact h.distinct
    · have hItem : l ∈ e.items.flatMap (Item.declaration e.sema e.aux) :=
        List.mem_flatMap.mpr ⟨_, mem_classes.mp h.declared, hl⟩
      rw [ir_split]
      simp [hItem]
  rw [h.split, emitted_append, emitted_cons, latest_append, latest_append, latest_none hAfter, hHere]
  rfl

/-- The flattened slots of the class are still those of its chain. -/
theorem Current.effective :
    Nodes.Effective (tables es).nodes (mangled c.name) (slotsOf e.sema.classSlots c) := by
  refine hOrderly.agree (lower c.name) _ ?_
  have hUpTo : (tables (before ++ [e])).flat.lookup (lower c.name) =
      some (slotsOf e.sema.classSlots c) := by
    have hSlots := hOrderly.slots before e after h.split (lower c.name)
    have hSome : Dict.contains (tables (before ++ [e])).flat (lower c.name) = true := by
      refine declareAll_flat_some (.inl ⟨c, ?_, rfl⟩)
      rw [declarations_append]
      exact List.mem_append_right _ (by simpa [declarations] using h.declared)
    obtain ⟨slots, hLookup⟩ := Dict.contains_iff.mp hSome
    unfold slotsOf
    rw [hSlots, hLookup]
    rfl
  have hEs : es = (before ++ [e]) ++ after := by
    rw [h.split, List.append_assoc]
    rfl
  rw [← hUpTo, hEs]
  unfold tables
  rw [declarations_append, List.foldl_append]
  refine declareAll_flat_other fun c' hc' hName => ?_
  obtain ⟨e', he', hc'⟩ := List.mem_flatMap.mp hc'
  refine h.kept (image (lower c'.name)) (List.mem_flatMap.mpr ⟨e', he', ?_⟩) ?_
  · refine List.mem_append_left _ (List.mem_append_left _ (List.mem_flatMap.mpr ⟨_, mem_classes.mp hc', ?_⟩))
    exact List.mem_cons_self
  · rw [hName]
    exact List.mem_cons_self

theorem Current.slots_nodup : (slotsOf e.sema.classSlots c).Nodup := by
  have hIn : e ∈ es := by
    rw [h.split]
    simp
  obtain ⟨hEach, -⟩ := List.nodup_flatMap.mp (wordNames_nodup (hOrderly.distinct e hIn))
  have hWords := hEach c h.declared
  have hSlots : ((slotsOf e.sema.classSlots c).flatMap fun s => [lower c.name ++ ">" ++ s]).Nodup := by
    refine hWords.sublist ?_
    unfold wordNames classSynthesisedNames
    simp only [List.cons_append, List.tail_cons, List.map_cons, List.map_flatMap, List.nil_append,
      List.map_nil]
    refine ((List.Sublist.cons _ (List.Sublist.cons _ ?_)))
    induction slotsOf e.sema.classSlots c with
    | nil => exact List.Sublist.refl _
    | cons s slots ih =>
      rw [List.flatMap_cons, List.flatMap_cons]
      exact List.Sublist.append (List.Sublist.cons_cons _ (List.nil_sublist _)) ih
  rw [← List.map_eq_flatMap] at hSlots
  exact hSlots.of_map _

end Current

/-! The calls. -/

theorem slotWord_mem {r : Sema} {c : ClassDef} {s : String} (hs : s ∈ slotsOf r.classSlots c)
    {l : Line} (hl : l ∈ emitSlotWords (lower c.name) s) : l ∈ emitClass c r :=
  .tail _ (.tail _ (List.mem_flatMap.mpr ⟨s, hs, hl⟩))

section Calls
variable {rawWords : String → List String} {es before after : List Eval} {e : Eval} {c : ClassDef}
variable (hOrderly : Orderly rawWords es) (h : Current rawWords es before e after c)
variable (V : Vm (TupleObj α) (Heap α W)) (k : Nat) {m m' : TupleMachine α W}
include hOrderly h

theorem Current.colon_call {name : String} {effect : EffectText} {body : List Tok} {inline : Bool}
    (hl : .colon (factorUserName name) effect body inline ∈ emitClass c e.sema)
    (T : Nodes String String) :
    callWord V rawWords es T k name = called (run ((V.withTuples T (latest rawWords (emitted es))).link
      (latest rawWords (emitted es)) k) body) :=
  link_word_succ (h.latest_eq hOrderly hl List.mem_cons_self) rfl

theorem Current.constructor_call :
    callWord V rawWords es (tables es).nodes k ("<" ++ lower c.name ++ ">") m m' ↔
      ∃ vs st, vs.length = (slotsOf e.sema.classSlots c).length ∧ m.stack = vs.reverse ++ st ∧
        m' = m.upd (.obj (.tuple m.tuples.length) :: st)
          (m.tuples ++ [⟨mangled c.name, (slotsOf e.sema.classSlots c).zip vs⟩]) := by
  have hSlots := h.effective hOrderly
  have hTuple := h.latest_eq hOrderly (List.mem_cons_self) (w := mangled c.name) List.mem_cons_self
  rw [h.colon_call hOrderly V k (.tail _ (.head _))]
  refine (constructor_called V k hTuple).trans ?_
  constructor
  · rintro ⟨slots, vs, st, hEffective, hLength, hStack, rfl⟩
    obtain rfl := hEffective.unique hSlots
    exact ⟨vs, st, hLength, hStack, rfl⟩
  · rintro ⟨vs, st, hLength, hStack, rfl⟩
    exact ⟨_, vs, st, hSlots, hLength, hStack, rfl⟩

theorem Current.predicate_call
    (hName : factorUserName (lower c.name ++ "?") = factorUserName (lower c.name) ++ "?")
    (T : Nodes String String) :
    callWord V rawWords es T k (lower c.name ++ "?") = pushInstance T (mangled c.name) := by
  have hTuple := h.latest_eq hOrderly (List.mem_cons_self) (w := mangled c.name ++ "?")
    (List.mem_cons_of_mem _ List.mem_cons_self)
  unfold callWord
  rw [hName]
  refine (link_word_tuple V (k + 1) hTuple).trans (if_neg fun hSame => ?_)
  have hLength := congrArg String.length hSame
  simp [mangled, String.length_append] at hLength

variable {s : String} (hs : s ∈ slotsOf e.sema.classSlots c)
include hs

theorem Current.getter_call :
    callWord V rawWords es (tables es).nodes k (lower c.name ++ ">" ++ s) m m' ↔ readSlot s m m' := by
  have hSlot := effective_names (h.effective hOrderly) s hs
  rw [h.colon_call hOrderly V k (slotWord_mem hs (.head _)),
    getter_called V k hSlot hOrderly.accessorsApart]

theorem Current.setter_call :
    callWord V rawWords es (tables es).nodes k (s ++ ">>" ++ lower c.name) m m' ↔ setSlot s m m' := by
  have hSlot := effective_names (h.effective hOrderly) s hs
  rw [h.colon_call hOrderly V k (slotWord_mem hs (.tail _ (.head _))),
    setter_called V k hSlot hOrderly.accessorsApart]

theorem Current.store_call :
    callWord V rawWords es (tables es).nodes k (lower c.name ++ "." ++ s ++ "!") m m' ↔
      ∃ a st t v, m.stack = .obj (.tuple a) :: v :: st ∧ m.tuples[a]? = some t ∧
        (t.slots.lookup s).isSome = true ∧ m' = m.upd st (m.tuples.set a (t.put s v)) := by
  have hSlot := effective_names (h.effective hOrderly) s hs
  rw [h.colon_call hOrderly V k (slotWord_mem hs (.tail _ (.tail _ (.head _)))),
    store_called V k hSlot hOrderly.accessorsApart]

end Calls

/-! What a call puts into slots, and what the slots of all objects hold. -/

/-- The value put last into each slot of each object. -/
abbrev Puts (α : Type) : Type := Nat → String → Option (Value (TupleObj α))

def Puts.put (puts : Puts α) (a : Nat) (s : String) (v : Value (TupleObj α)) : Puts α :=
  fun b r => if b = a ∧ r = s then some v else puts b r

/-- What a call of a class's word puts into slots. -/
def ClassWord.puts (slots : List String) (m : TupleMachine α W) (puts : Puts α) : ClassWord → Puts α
  | .constructor => fun b r =>
    if b = m.tuples.length then (slots.zip (m.stack.take slots.length).reverse).lookup r else puts b r
  | .setter s =>
    match m.stack with
    | v :: .obj (.tuple a) :: _ => puts.put a s v
    | _ => puts
  | .store s =>
    match m.stack with
    | .obj (.tuple a) :: v :: _ => puts.put a s v
    | _ => puts
  | _ => puts

/-- The value in a slot of an object. -/
def slotValue (m : TupleMachine α W) (a : Nat) (s : String) : Option (Value (TupleObj α)) :=
  m.tuples[a]?.bind fun t => t.slots.lookup s

/-- The states that a session passes through: compiles are loaded, the words of its classes are called,
and other words do what they like to anything but the tuples. -/
inductive Uses (V : Vm (TupleObj α) (Heap α W)) (rawWords : String → List String) :
    List Eval → TupleMachine α W → Puts α → Prop where
  | start {m : TupleMachine α W} (h : m.tuples = []) : Uses V rawWords [] m fun _ _ => none
  | load {es : List Eval} {m m' : TupleMachine α W} {puts : Puts α} (h : Uses V rawWords es m puts)
      (e : Eval) {T : Nodes String String} (hT : LoadsTo rawWords (emitted (es ++ [e])) T)
      (hTuples : List.Forall₂ (Reshaped T) m.tuples m'.tuples) :
      -- an instance that gains a slot holds `f` there
      Uses V rawWords (es ++ [e]) m' fun a s =>
        if (slotValue m a s).isSome then puts a s else slotValue m' a s
  | other {es : List Eval} {m m' : TupleMachine α W} {puts : Puts α} (h : Uses V rawWords es m puts)
      (hTuples : m'.tuples = m.tuples) : Uses V rawWords es m' puts
  | call {es before after : List Eval} {e : Eval} {c : ClassDef} {m m' : TupleMachine α W}
      {puts : Puts α} (h : Uses V rawWords es m puts) {T : Nodes String String}
      (hT : LoadsTo rawWords (emitted es) T) (hCurrent : Current rawWords es before e after c)
      {w : ClassWord} (hw : w.Of (slotsOf e.sema.classSlots c)) (hOther : w ≠ .predicate) {k : Nat}
      (hCall : callWord V rawWords es T k (w.name (lower c.name)) m m') :
      Uses V rawWords es m' (w.puts (slotsOf e.sema.classSlots c) m puts)

/-! Slots. -/

theorem lookup_map_self {β : Type} (f : String → β) {slots : List String} {s : String} {v : β}
    (h : (slots.map fun r => (r, f r)).lookup s = some v) : v = f s := by
  induction slots with
  | nil => cases h
  | cons r slots ih =>
    rw [List.map_cons, Dict.lookup_cons] at h
    split at h
    · rename_i hSame
      rw [← hSame]
      exact (Option.some.inj h).symm
    · exact ih h

theorem put_names (t : Tuple α) (s : String) (v : Value (TupleObj α)) :
    (t.put s v).slots.map Prod.fst = t.slots.map Prod.fst := by
  unfold Tuple.put
  rw [List.map_map]
  refine List.map_congr_left fun p _ => ?_
  dsimp only [Function.comp]
  split
  · rename_i hSame
    exact hSame.symm
  · rfl

theorem put_lookup (t : Tuple α) (s : String) (v : Value (TupleObj α)) (r : String) :
    (t.put s v).slots.lookup r =
      if r = s then (t.slots.lookup s).map fun _ => v else t.slots.lookup r := by
  unfold Tuple.put
  dsimp only
  induction t.slots with
  | nil => split <;> rfl
  | cons p slots ih =>
    obtain ⟨q, u⟩ := p
    rw [List.map_cons]
    by_cases hq : q = s
    · subst hq
      rw [if_pos rfl, Dict.lookup_cons, Dict.lookup_cons, Dict.lookup_cons, ih, if_pos rfl]
      by_cases hr : q = r
      · subst hr
        rw [if_pos rfl, if_pos rfl]
        rfl
      · rw [if_neg hr, if_neg hr, if_neg (Ne.symm hr), if_neg (Ne.symm hr)]
    · rw [if_neg hq, Dict.lookup_cons, Dict.lookup_cons, Dict.lookup_cons, ih, if_neg hq]
      by_cases hr : q = r
      · subst hr
        rw [if_pos rfl, if_pos rfl, if_neg hq]
      · rw [if_neg hr, if_neg hr]

/-- A new value in one slot of one object, and nothing else. -/
theorem slotValue_set {m : TupleMachine α W} {a : Nat} {t : Tuple α} {s : String}
    (hTuple : m.tuples[a]? = some t) (hSlot : (t.slots.lookup s).isSome = true)
    (st : List (Value (TupleObj α))) (v : Value (TupleObj α)) (b : Nat) (r : String) :
    slotValue (m.upd st (m.tuples.set a (t.put s v))) b r =
      if b = a ∧ r = s then some v else slotValue m b r := by
  obtain ⟨hBound, -⟩ := List.getElem?_eq_some_iff.mp hTuple
  obtain ⟨u, hOld⟩ := Option.isSome_iff_exists.mp hSlot
  unfold slotValue
  rw [upd_tuples, List.getElem?_set]
  by_cases hb : b = a
  · subst hb
    rw [if_pos rfl, if_pos hBound, Option.bind_some, put_lookup, hTuple, Option.bind_some, hOld]
    by_cases hr : r = s
    · rw [if_pos hr, if_pos ⟨rfl, hr⟩]
      rfl
    · rw [if_neg hr, if_neg fun hBoth => hr hBoth.2]
  · rw [if_neg (Ne.symm hb), if_neg fun hBoth => hb hBoth.1]

/-- Every object has the slots of its class, with the values that were put there last. -/
structure Sound (T : Nodes String String) (m : TupleMachine α W) (puts : Puts α) : Prop where
  shaped : ∀ (a : Nat) (t : Tuple α), m.tuples[a]? = some t → Nodes.Effective T t.class_ (t.slots.map Prod.fst)
  last : ∀ a s v, slotValue m a s = some v → puts a s = some v

theorem Sound.set {T : Nodes String String} {m : TupleMachine α W} {puts : Puts α}
    (h : Sound T m puts) {a : Nat} {t : Tuple α} {s : String} (hTuple : m.tuples[a]? = some t)
    (hSlot : (t.slots.lookup s).isSome = true) (st : List (Value (TupleObj α)))
    (v : Value (TupleObj α)) :
    Sound T (m.upd st (m.tuples.set a (t.put s v))) (puts.put a s v) := by
  refine ⟨fun b u hu => ?_, fun b r w hw => ?_⟩
  · rw [upd_tuples, List.getElem?_set] at hu
    split at hu
    · split at hu
      · obtain rfl := Option.some.inj hu
        rw [put_names]
        exact h.shaped a t hTuple
      · cases hu
    · exact h.shaped b u hu
  · rw [slotValue_set hTuple hSlot] at hw
    unfold Puts.put
    split
    · rename_i hSame
      rwa [if_pos hSame] at hw
    · rename_i hOther
      rw [if_neg hOther] at hw
      exact h.last b r w hw

theorem Sound.same {T : Nodes String String} {m m' : TupleMachine α W} {puts : Puts α}
    (h : Sound T m puts) (hTuples : m'.tuples = m.tuples) : Sound T m' puts := by
  refine ⟨fun a t ht => h.shaped a t (hTuples ▸ ht), fun a s v hv => h.last a s v ?_⟩
  rw [← hv, slotValue, slotValue, hTuples]

theorem Sound.make {T : Nodes String String} {m : TupleMachine α W} {puts : Puts α}
    (h : Sound T m puts) {cls : String} {slots : List String} (hSlots : Nodes.Effective T cls slots)
    {vs st : List (Value (TupleObj α))} (hLength : vs.length = slots.length)
    (hStack : m.stack = vs.reverse ++ st) (st' : List (Value (TupleObj α))) :
    Sound T (m.upd st' (m.tuples ++ [⟨cls, slots.zip vs⟩]))
      (ClassWord.puts slots m puts .constructor) := by
  have hTaken : (m.stack.take slots.length).reverse = vs := by
    rw [hStack, ← hLength, ← List.length_reverse, List.take_left, List.reverse_reverse]
  refine ⟨fun a t ht => ?_, fun a s v hv => ?_⟩
  · rw [upd_tuples, List.getElem?_append] at ht
    split at ht
    · exact h.shaped a t ht
    · obtain ⟨-, rfl⟩ := List.getElem?_eq_some_iff.mp ht
      have hNames : (slots.zip vs).map Prod.fst = slots := List.map_fst_zip (le_of_eq hLength.symm)
      simp only [List.getElem_singleton, hNames]
      exact hSlots
  · show (if a = m.tuples.length then (slots.zip (m.stack.take slots.length).reverse).lookup s
      else puts a s) = some v
    rw [hTaken]
    unfold slotValue at hv
    rw [upd_tuples] at hv
    by_cases ha : a = m.tuples.length
    · rw [if_pos ha]
      rw [ha, List.getElem?_append_right (le_refl _), Nat.sub_self] at hv
      exact hv
    · rw [if_neg ha]
      refine h.last a s v ?_
      unfold slotValue
      by_cases hBelow : a < m.tuples.length
      · rwa [List.getElem?_append_left hBelow] at hv
      · have hNone : (m.tuples ++ [⟨cls, slots.zip vs⟩])[a]? = none := by
          rw [List.getElem?_eq_none_iff, List.length_append, List.length_singleton]
          omega
        rw [hNone] at hv
        cases hv

theorem Sound.reshape {T T' : Nodes String String} {m m' : TupleMachine α W} {puts : Puts α}
    (h : Sound T m puts) (hTuples : List.Forall₂ (Reshaped T') m.tuples m'.tuples) :
    Sound T' m' fun a s => if (slotValue m a s).isSome then puts a s else slotValue m' a s := by
  have hOld : ∀ (a : Nat) (t' : Tuple α), m'.tuples[a]? = some t' →
      ∃ t, m.tuples[a]? = some t ∧ Reshaped T' t t' := by
    intro a t' ht'
    obtain ⟨hBound, rfl⟩ := List.getElem?_eq_some_iff.mp ht'
    have hBefore : a < m.tuples.length := by rwa [hTuples.length_eq]
    exact ⟨m.tuples[a], List.getElem?_eq_getElem hBefore, hTuples.get hBefore hBound⟩
  refine ⟨fun a t' ht' => ?_, fun a s v hv => ?_⟩
  · obtain ⟨t, -, hClass, slots, hSlots, hNew⟩ := hOld a t' ht'
    have hNames : t'.slots.map Prod.fst = slots := by
      rw [hNew, List.map_map]
      exact List.map_id'' (fun _ => rfl) slots
    rw [hNames, hClass]
    exact hSlots
  · cases hBefore : slotValue m a s with
    | none =>
      rw [if_neg (by simp)]
      exact hv
    | some u =>
      rw [if_pos (Option.isSome_some)]
      refine h.last a s v (hBefore.trans ?_)
      obtain ⟨t', ht', hLookup⟩ := Option.bind_eq_some_iff.mp hv
      obtain ⟨t, ht, -, slots, -, hNew⟩ := hOld a t' ht'
      rw [hNew] at hLookup
      have hValue := lookup_map_self _ hLookup
      unfold slotValue at hBefore
      rw [ht, Option.bind_some] at hBefore
      rw [hValue, hBefore]
      rfl

/-- In every state of an orderly session the objects are sound. -/
theorem Uses.sound {V : Vm (TupleObj α) (Heap α W)} {rawWords : String → List String} {es : List Eval}
    {m : TupleMachine α W} {puts : Puts α} (h : Uses V rawWords es m puts)
    (hOrderly : Orderly rawWords es) : Sound (tables es).nodes m puts := by
  induction h with
  | start hNone =>
    refine ⟨fun a t ht => ?_, fun a s v hv => ?_⟩
    · rw [hNone] at ht
      cases ht
    · unfold slotValue at hv
      rw [hNone] at hv
      cases hv
  | load _ e hT hTuples ih =>
    rw [hOrderly.loaded_unique hT] at hTuples
    exact (ih hOrderly.prefix).reshape hTuples
  | other _ hTuples ih => exact (ih hOrderly).same hTuples
  | call _ hT hCurrent hw hOther hCall ih =>
    have hSound := ih hOrderly
    rw [hOrderly.loaded_unique hT] at hCall
    rename_i w _
    cases w with
    | predicate => exact absurd rfl hOther
    | constructor =>
      obtain ⟨vs, st, hLength, hStack, rfl⟩ := (hCurrent.constructor_call hOrderly _ _).mp hCall
      exact hSound.make (hCurrent.effective hOrderly) hLength hStack _
    | getter s =>
      obtain ⟨a, st, t, v, -, -, -, rfl⟩ := (hCurrent.getter_call hOrderly _ _ (hw s rfl)).mp hCall
      exact hSound.same rfl
    | setter s =>
      obtain ⟨a, st, t, v, hStack, hTuple, hSlot, rfl⟩ :=
        (hCurrent.setter_call hOrderly _ _ (hw s rfl)).mp hCall
      unfold ClassWord.puts
      rw [hStack]
      exact hSound.set hTuple hSlot _ v
    | store s =>
      obtain ⟨a, st, t, v, hStack, hTuple, hSlot, rfl⟩ :=
        (hCurrent.store_call hOrderly _ _ (hw s rfl)).mp hCall
      unfold ClassWord.puts
      rw [hStack]
      exact hSound.set hTuple hSlot _ v

/-- What is asked of the words of a class in a state of a session with these classes, where the slots
hold what was put last. -/
structure Lawful (V : Vm (TupleObj α) (Heap α W)) (rawWords : String → List String) (es : List Eval)
    (T : Nodes String String) (c : ClassDef) (slots : List String) (m : TupleMachine α W)
    (puts : Puts α) : Prop where
  /-- The slots that the constructor is written for are those of the chain, without repetition. -/
  chain : Nodes.Effective T (mangled c.name) slots
  distinct : slots.Nodup
  construct : ∀ k m', callWord V rawWords es T k ("<" ++ lower c.name ++ ">") m m' ↔
    ∃ vs st, vs.length = slots.length ∧ m.stack = vs.reverse ++ st ∧
      m' = m.upd (.obj (.tuple m.tuples.length) :: st) (m.tuples ++ [⟨mangled c.name, slots.zip vs⟩])
  /-- An instance of the class or of a descendant has all the slots, with the values put last. -/
  present : ∀ (a : Nat) (t : Tuple α), m.tuples[a]? = some t →
    Nodes.Descends T (mangled c.name) t.class_ →
      ∀ s ∈ slots, ∃ v, slotValue m a s = some v ∧ puts a s = some v
  get : ∀ s ∈ slots, ∀ k m', callWord V rawWords es T k (lower c.name ++ ">" ++ s) m m' ↔
    ∃ a st v, m.stack = .obj (.tuple a) :: st ∧ slotValue m a s = some v ∧ puts a s = some v ∧
      m' = m.upd (v :: st) m.tuples
  set : ∀ s ∈ slots, ∀ k a st v, m.stack = v :: .obj (.tuple a) :: st →
    (slotValue m a s).isSome = true →
      ∃ m', (∀ m'', callWord V rawWords es T k (s ++ ">>" ++ lower c.name) m m'' ↔ m'' = m') ∧
        m'.stack = .obj (.tuple a) :: st ∧
        ∀ b r, slotValue m' b r = if b = a ∧ r = s then some v else slotValue m b r
  store : ∀ s ∈ slots, ∀ k a st v, m.stack = .obj (.tuple a) :: v :: st →
    (slotValue m a s).isSome = true →
      ∃ m', (∀ m'', callWord V rawWords es T k (lower c.name ++ "." ++ s ++ "!") m m'' ↔ m'' = m') ∧
        m'.stack = st ∧
        ∀ b r, slotValue m' b r = if b = a ∧ r = s then some v else slotValue m b r
  /-- The predicate leaves a Factor boolean, which is true of the instances and of them only. -/
  predicate : factorUserName (lower c.name ++ "?") = factorUserName (lower c.name) ++ "?" →
    ∀ k m', callWord V rawWords es T k (lower c.name ++ "?") m m' ↔
      ∃ x st b, m.stack = x :: st ∧ m' = m.upd (.bool b :: st) m.tuples ∧
        (b = true ↔ ∃ a t, x = .obj (.tuple a) ∧ m.tuples[a]? = some t ∧
          Nodes.Descends T (mangled c.name) t.class_)

/-- The predicate of a class leaves `-1` or `0`. -/
def LeavesFlag (V : Vm (TupleObj α) (Heap α W)) (rawWords : String → List String) (es : List Eval)
    (T : Nodes String String) (c : ClassDef) (m : TupleMachine α W) : Prop :=
  ∀ k m', callWord V rawWords es T k (lower c.name ++ "?") m m' →
    ∃ st, m'.stack = .int (-1) :: st ∨ m'.stack = .int 0 :: st

section Laws
variable {rawWords : String → List String} {es before after : List Eval} {e : Eval} {c : ClassDef}
variable (hOrderly : Orderly rawWords es) (h : Current rawWords es before e after c)
variable (V : Vm (TupleObj α) (Heap α W)) {m : TupleMachine α W} {puts : Puts α}
include hOrderly h

theorem Current.lawful (hSound : Sound (tables es).nodes m puts) :
    Lawful V rawWords es (tables es).nodes c (slotsOf e.sema.classSlots c) m puts := by
  have hChain := h.effective hOrderly
  refine ⟨hChain, h.slots_nodup hOrderly, fun k m' => h.constructor_call hOrderly V k, ?_, ?_, ?_, ?_, ?_⟩
  · intro a t ht hBelow s hs
    have hIn : s ∈ t.slots.map Prod.fst :=
      (hBelow.slots_prefix hChain (hSound.shaped a t ht)).subset hs
    have hKnown : ∃ v, t.slots.lookup s = some v := by
      obtain ⟨p, hp, rfl⟩ := List.mem_map.mp hIn
      cases hLookup : t.slots.lookup p.1 with
      | some v => exact ⟨v, rfl⟩
      | none => simpa using List.lookup_eq_none_iff.mp hLookup p hp
    obtain ⟨v, hv⟩ := hKnown
    have hValue : slotValue m a s = some v := by
      unfold slotValue
      rw [ht]
      exact hv
    exact ⟨v, hValue, hSound.last a s v hValue⟩
  · intro s hs k m'
    rw [h.getter_call hOrderly V k hs]
    constructor
    · rintro ⟨a, st, t, v, hStack, hTuple, hSlot, rfl⟩
      have hValue : slotValue m a s = some v := by
        unfold slotValue
        rw [hTuple]
        exact hSlot
      exact ⟨a, st, v, hStack, hValue, hSound.last a s v hValue, rfl⟩
    · rintro ⟨a, st, v, hStack, hValue, -, rfl⟩
      obtain ⟨t, hTuple, hSlot⟩ := Option.bind_eq_some_iff.mp hValue
      exact ⟨a, st, t, v, hStack, hTuple, hSlot, rfl⟩
  · intro s hs k a st v hStack hSome
    obtain ⟨u, hValue⟩ := Option.isSome_iff_exists.mp hSome
    obtain ⟨t, hTuple, hOld⟩ := Option.bind_eq_some_iff.mp hValue
    have hSlot : (t.slots.lookup s).isSome = true := Option.isSome_iff_exists.mpr ⟨u, hOld⟩
    refine ⟨m.upd (.obj (.tuple a) :: st) (m.tuples.set a (t.put s v)), fun m'' => ?_, rfl,
      slotValue_set hTuple hSlot _ v⟩
    rw [h.setter_call hOrderly V k hs]
    constructor
    · rintro ⟨a', st', t', v', hStack', hTuple', -, rfl⟩
      rw [hStack] at hStack'
      cases hStack'
      rw [hTuple] at hTuple'
      cases hTuple'
      rfl
    · rintro rfl
      exact ⟨a, st, t, v, hStack, hTuple, hSlot, rfl⟩
  · intro s hs k a st v hStack hSome
    obtain ⟨u, hValue⟩ := Option.isSome_iff_exists.mp hSome
    obtain ⟨t, hTuple, hOld⟩ := Option.bind_eq_some_iff.mp hValue
    have hSlot : (t.slots.lookup s).isSome = true := Option.isSome_iff_exists.mpr ⟨u, hOld⟩
    refine ⟨m.upd st (m.tuples.set a (t.put s v)), fun m'' => ?_, rfl, slotValue_set hTuple hSlot _ v⟩
    rw [h.store_call hOrderly V k hs]
    constructor
    · rintro ⟨a', st', t', v', hStack', hTuple', -, rfl⟩
      rw [hStack] at hStack'
      cases hStack'
      rw [hTuple] at hTuple'
      cases hTuple'
      rfl
    · rintro rfl
      exact ⟨a, st, t, v, hStack, hTuple, hSlot, rfl⟩
  · intro hName k m'
    rw [h.predicate_call hOrderly V k hName]
    rfl

theorem Current.leaves_no_flag
    (hName : factorUserName (lower c.name ++ "?") = factorUserName (lower c.name) ++ "?")
    (hStack : m.stack ≠ []) : ¬ LeavesFlag V rawWords es (tables es).nodes c m := by
  intro hFlag
  obtain ⟨x, st, hx⟩ := List.exists_cons_of_ne_nil hStack
  classical
  let b := decide (∃ a t, x = .obj (.tuple a) ∧ m.tuples[a]? = some t ∧
    Nodes.Descends (tables es).nodes (mangled c.name) t.class_)
  have hCall : callWord V rawWords es (tables es).nodes 0 (lower c.name ++ "?") m
      (m.upd (.bool b :: st) m.tuples) := by
    rw [h.predicate_call hOrderly V 0 hName]
    exact ⟨x, st, b, hx, rfl, decide_eq_true_iff⟩
  obtain ⟨st', hInt | hInt⟩ := hFlag 0 _ hCall <;> cases hInt

end Laws

theorem evals_distinct (host : Host) (fs : FileSystem) (sources : List String) (ctx : CompileContext)
    (counters : Counters) : ∀ e ∈ evals host fs sources ctx counters,
      (registered e.sema.classSlots e.items).Nodup := by
  induction sources generalizing ctx counters with
  | nil => simp [evals]
  | cons source sources ih =>
    intro e he
    rcases List.mem_append.mp he with he | he
    · rw [Option.mem_toList] at he
      unfold compileEval at he
      split at he
      · cases he
      · rename_i sema hSema
        obtain rfl := Option.some.inj he
        exact names_nodup hSema
    · exact ih _ _ e he

theorem evals_orderly {host : Host} {fs : FileSystem} {rawWords : String → List String}
    {sources : List String} {counters : Counters} {es : List Eval}
    (hes : evals host fs sources .new counters = es)
    (hFollow : Tables.FollowAll ⟨[], []⟩ (declarations es)) (hNames : NamesKept rawWords [] es)
    (hAccessors : AccessorsApart ((declarations es).flatMap slotsDeclared)) : Orderly rawWords es := by
  subst hes
  exact ⟨evals_wide host fs _ _ _, fun before e after hSplit =>
    evals_classSlots host fs _ (t := ⟨[], []⟩) (fun k => rfl) hSplit, evals_distinct host fs _ _ _, hFollow,
    hNames, hAccessors⟩

/-- In a session where every class follows its parent, a class that others extend keeps its slots, no
other word takes the name of a class and no two accessors share a name, the words of each current class
obey the laws of objects in every state, but its predicate never leaves a flag. -/
theorem class_words_lawful {host : Host} {fs : FileSystem} (V : Vm (TupleObj α) (Heap α W))
    {rawWords : String → List String} {sources : List String} {counters : Counters} {es : List Eval}
    (hes : evals host fs sources .new counters = es)
    (hFollow : Tables.FollowAll ⟨[], []⟩ (declarations es)) (hNames : NamesKept rawWords [] es)
    (hAccessors : AccessorsApart ((declarations es).flatMap slotsDeclared))
    {m : TupleMachine α W} {puts : Puts α} (hUses : Uses V rawWords es m puts)
    {before after : List Eval} {e : Eval} {c : ClassDef}
    (hCurrent : Current rawWords es before e after c) :
    (∃ T, LoadsTo rawWords (emitted es) T) ∧ ∀ T, LoadsTo rawWords (emitted es) T →
      Lawful V rawWords es T c (slotsOf e.sema.classSlots c) m puts ∧
      (factorUserName (lower c.name ++ "?") = factorUserName (lower c.name) ++ "?" → m.stack ≠ [] →
        ¬ LeavesFlag V rawWords es T c m) := by
  have hOrderly := evals_orderly hes hFollow hNames hAccessors
  refine ⟨⟨_, hOrderly.loaded⟩, fun T hT => ?_⟩
  rw [hOrderly.loaded_unique hT]
  exact ⟨hCurrent.lawful hOrderly V (hUses.sound hOrderly),
    fun hName => hCurrent.leaves_no_flag hOrderly V hName⟩

/-! Sessions without raw Factor. -/

def noRaw : String → List String := fun _ => []

/-- A machine whose own words do nothing. -/
def bareVm : Vm (TupleObj Unit) (Heap Unit Unit) :=
  ⟨fun _ _ _ => False, fun _ _ _ => False, fun _ _ _ => False, fun _ => .other (), fun _ => .other (),
    fun _ => .other (), fun _ => false, fun _ _ => false⟩

theorem oneSlot_session : ∃ e c, evals noLet noFiles [oneSlot] .new .start = [e] ∧
    lower c.name = "p" ∧ slotsOf e.sema.classSlots c = ["x"] ∧
      Tables.FollowAll ⟨[], []⟩ (declarations [e]) ∧ NamesKept noRaw [] [e] ∧
      AccessorsApart ((declarations [e]).flatMap slotsDeclared) ∧ Current noRaw [e] [] e [] c := by
  have hRun : (evals noLet noFiles [oneSlot] .new .start).map (fun e =>
      ((classes e.items).map fun c => (namedNode c, slotsOf e.sema.classSlots c),
        decide ((origins noRaw e).map Origin.word).Nodup)) =
      [([(("z-p", ⟨none, ["x"]⟩), ["x"])], true)] := by
    decide +kernel
  have hNames : NamesKept noRaw [] (evals noLet noFiles [oneSlot] .new .start) := by decide +kernel
  obtain ⟨e, hEvals, hData⟩ := List.map_eq_singleton_iff.mp hRun
  obtain ⟨hClasses, hNodup⟩ := Prod.mk.inj hData
  obtain ⟨c, hClass, hFields⟩ := List.map_eq_singleton_iff.mp hClasses
  obtain ⟨hNode, hSlots⟩ := Prod.mk.inj hFields
  have hMangled : mangled c.name = "z-p" := congrArg Prod.fst hNode
  have hOwn : slotsDeclared c = ["x"] := congrArg (fun p => p.2.own) hNode
  have hParent : c.superclass = none :=
    Option.map_eq_none_iff.mp (congrArg (fun p => p.2.parent) hNode)
  have hDeclared : declarations [e] = [c] := by
    rw [declarations, List.flatMap_singleton, hClass]
  rw [hEvals] at hNames
  refine ⟨e, c, hEvals, ?_, hSlots, ?_, hNames, ?_, ⟨rfl, ?_, of_decide_eq_true hNodup, ?_⟩⟩
  · have hSafe : safeName (lower c.name) = "p" := (String.append_right_inj "z-").mp hMangled
    rcases safeName_cases (lower c.name) with hSame | hRenamed
    · rw [← hSame, hSafe]
    · rw [hSafe] at hRenamed
      simp [renamedPairs] at hRenamed
  · rw [hDeclared]
    refine ⟨⟨?_, ?_, by rintro d own slots ⟨⟩, by rintro j ⟨⟩⟩, trivial⟩
    · rw [hParent]
      rintro p ⟨⟩
    · rw [hParent]
      rintro p ⟨⟩
  · rw [hDeclared, List.flatMap_singleton, hOwn]
    decide
  · rw [hClass]
    exact List.mem_cons_self
  · rintro o ⟨⟩

/-- One object with 7 in its slot. -/
theorem class_words_lawful_oneSlot : ∃ e c m puts, evals noLet noFiles [oneSlot] .new .start = [e] ∧
    Uses bareVm noRaw [e] m puts ∧ Current noRaw [e] [] e [] c ∧
      m.stack = [.obj (.tuple 0)] ∧ slotValue m 0 "x" = some (.int 7) ∧
      (∃ T, LoadsTo noRaw (emitted [e]) T) ∧ ∀ T, LoadsTo noRaw (emitted [e]) T →
        Lawful bareVm noRaw [e] T c (slotsOf e.sema.classSlots c) m puts ∧
        (factorUserName (lower c.name ++ "?") = factorUserName (lower c.name) ++ "?" → m.stack ≠ [] →
          ¬ LeavesFlag bareVm noRaw [e] T c m) := by
  obtain ⟨e, c, hEvals, -, hSlots, hFollow, hNames, hAccessors, hCurrent⟩ := oneSlot_session
  have hOrderly := evals_orderly hEvals hFollow hNames hAccessors
  have hLoaded : Uses bareVm noRaw [e] ⟨[.int 7], [], ⟨[], ()⟩⟩ _ :=
    .load (.start (m := ⟨[], [], ⟨[], ()⟩⟩) rfl) e hOrderly.loaded .nil
  have hMade := (hCurrent.constructor_call hOrderly bareVm 0 (m := ⟨[.int 7], [], ⟨[], ()⟩⟩)).mpr
    ⟨[.int 7], [], by rw [hSlots]; rfl, rfl, rfl⟩
  have hUses := Uses.call (w := .constructor) hLoaded hOrderly.loaded hCurrent nofun nofun hMade
  refine ⟨e, c, _, _, hEvals, hUses, hCurrent, rfl, ?_,
    class_words_lawful bareVm hEvals hFollow hNames hAccessors hUses hCurrent⟩
  rw [hSlots]
  rfl

/-- The predicate of `p` leaves no flag; and when `p` is declared again with a slot more, the
constructor of `q` is still written for the slots that `q` had. -/
theorem class_words_not_lawful :
    (¬ ∀ (source : String) (e : Eval) (c : ClassDef) (T : Nodes String String)
        (m : TupleMachine Unit Unit), evals noLet noFiles [source] .new .start = [e] →
      Current noRaw [e] [] e [] c → LoadsTo noRaw (emitted [e]) T → m.stack ≠ [] →
        LeavesFlag bareVm noRaw [e] T c m) ∧
    ¬ ∀ (sources : List String) (es before after : List Eval) (e : Eval) (c : ClassDef)
        (T : Nodes String String), evals noLet noFiles sources .new .start = es →
      Current noRaw es before e after c → LoadsTo noRaw (emitted es) T →
        Nodes.Effective T (mangled c.name) (slotsOf e.sema.classSlots c) := by
  constructor
  · intro hAll
    obtain ⟨e, c, hEvals, hName, -, hFollow, hNames, hAccessors, hCurrent⟩ := oneSlot_session
    have hOrderly := evals_orderly hEvals hFollow hNames hAccessors
    have hStack : (⟨[.int 0], [], ⟨[], ()⟩⟩ : TupleMachine Unit Unit).stack ≠ [] :=
      List.cons_ne_nil _ _
    refine hCurrent.leaves_no_flag hOrderly bareVm ?_ hStack
      (hAll oneSlot e c _ _ hEvals hCurrent hOrderly.loaded hStack)
    rw [hName]
    decide
  · intro hAll
    let sources := [oneSlot, "class: q extends p slot: y ;", "class: p slot: x slot: z ;"]
    have hRun : (evals noLet noFiles sources .new .start).map (fun e =>
          ((classes e.items).map fun c => (namedNode c, slotsOf e.sema.classSlots c),
            (origins noRaw e).map Origin.word)) =
        [([(("z-p", ⟨none, ["x"]⟩), ["x"])], ["z-p", "z-p?", "z-<p>", "z-p>x", "z-x>>p", "z-p.x!"]),
          ([(("z-q", ⟨some "z-p", ["y"]⟩), ["x", "y"])],
            ["z-q", "z-q?", "z-<q>", "z-q>x", "z-x>>q", "z-q.x!", "z-q>y", "z-y>>q", "z-q.y!"]),
          ([(("z-p", ⟨none, ["x", "z"]⟩), ["x", "z"])],
            ["z-p", "z-p?", "z-<p>", "z-p>x", "z-x>>p", "z-p.x!", "z-p>z", "z-z>>p", "z-p.z!"])] := by
      decide +kernel
    have hOwn : (evals noLet noFiles sources .new .start).map (fun e => (classes e.items).map fun c =>
          (classOrigins (lower c.name) (slotsOf e.sema.classSlots c)).map Origin.word) =
        [[["z-p", "z-p?", "z-<p>", "z-p>x", "z-x>>p", "z-p.x!"]],
          [["z-q", "z-q?", "z-<q>", "z-q>x", "z-x>>q", "z-q.x!", "z-q>y", "z-y>>q", "z-q.y!"]],
          [["z-p", "z-p?", "z-<p>", "z-p>x", "z-x>>p", "z-p.x!", "z-p>z", "z-z>>p", "z-p.z!"]]] := by
      decide +kernel
    have hNames : NamesKept noRaw [] (evals noLet noFiles sources .new .start) := by decide +kernel
    have hWide := evals_wide noLet noFiles sources .new .start
    obtain ⟨e₁, rest, hEvals, hFirst, hRest⟩ := List.map_eq_cons_iff.mp hRun
    obtain ⟨e₂, rest, rfl, hSecond, hRest⟩ := List.map_eq_cons_iff.mp hRest
    obtain ⟨e₃, rfl, hThird⟩ := List.map_eq_singleton_iff.mp hRest
    obtain ⟨c₁, hClass₁, hFields₁⟩ := List.map_eq_singleton_iff.mp (Prod.mk.inj hFirst).1
    obtain ⟨c₂, hClass₂, hFields₂⟩ := List.map_eq_singleton_iff.mp (Prod.mk.inj hSecond).1
    obtain ⟨c₃, hClass₃, hFields₃⟩ := List.map_eq_singleton_iff.mp (Prod.mk.inj hThird).1
    have hSlots := (Prod.mk.inj hFields₂).2
    have hNodes : (declarations [e₁, e₂, e₃]).map namedNode =
        [("z-p", ⟨none, ["x"]⟩), ("z-q", ⟨some "z-p", ["y"]⟩), ("z-p", ⟨none, ["x", "z"]⟩)] := by
      simp only [declarations, List.flatMap_cons, List.flatMap_nil, hClass₁, hClass₂, hClass₃,
        List.append_nil, List.cons_append, List.nil_append, List.map_cons, List.map_nil]
      rw [(Prod.mk.inj hFields₁).1, (Prod.mk.inj hFields₂).1, (Prod.mk.inj hFields₃).1]
    rw [hEvals] at hNames hWide hOwn
    have hLoaded := session_loads (t := ⟨[], []⟩) hWide (by rintro p ⟨⟩) hNames (by
      rw [hNodes]
      refine ⟨by rintro p ⟨⟩, ?_, by rintro p ⟨⟩, trivial⟩
      rintro p ⟨⟩
      exact ⟨["x"], .root rfl⟩)
    rw [← foldl_nodes, hNodes] at hLoaded
    have hCurrent : Current noRaw [e₁, e₂, e₃] [e₁] e₂ [e₃] c₂ := by
      refine ⟨rfl, ?_, ?_, ?_⟩
      · rw [hClass₂]
        exact List.mem_cons_self
      · rw [(Prod.mk.inj hSecond).2]
        decide
      · intro o ho
        have hWord := List.mem_map_of_mem (f := Origin.word) ho
        rw [List.flatMap_singleton, (Prod.mk.inj hThird).2] at hWord
        simp only [List.map_cons, List.map_nil, hClass₂, List.cons.injEq] at hOwn
        rw [hOwn.2.1.1]
        revert hWord
        generalize o.word = w
        revert w
        decide
    have hFlat := hAll sources _ _ _ _ _ _ hEvals hCurrent hLoaded
    rw [hSlots, show mangled c₂.name = "z-q" from congrArg Prod.fst (Prod.mk.inj hFields₂).1] at hFlat
    have hChain : Nodes.Effective [("z-p", ⟨none, ["x", "z"]⟩), ("z-q", ⟨some "z-p", ["y"]⟩)] "z-q"
        ["x", "z", "y"] := @Nodes.Effective.child _ _ _ _ _ _ _ ["x", "z"] rfl (.root rfl)
    exact absurd (hFlat.unique hChain) (by decide)

end FactorForth.Correctness
