import FactorForth.Correctness.StreamWords
import FactorForth.Protocols.Clones

/-! Copies of a collection and writes to them: what each word does to the stores. -/

namespace FactorForth.Correctness
open FactorForth.Library FactorForth.Protocols
open FactorForth.Semantics (LoopFrame)
variable {α ω : Type}

/-! Writes and copies. -/

/-- A word that writes to a collection, with what it takes beside the collection. -/
inductive Write (α : Type) where
  | putAt (x : Val (Obj α)) (i : Int)
  | putXY (v : Val (Obj α)) (x y : Int)
  | dPush (x : Val (Obj α))
  | stringPush (ch : Val (Obj α))
  | dictSet (v k : Val (Obj α))
  | dictDel (k : Val (Obj α))
  | setAdd (x : Val (Obj α))
  | setDel (x : Val (Obj α))

inductive Act (α : Type) where
  | clone (i : Nat)
  | write (i : Nat) (w : Write α)

section Acts
variable (P : TextProgram α ω)

def Write.words (c : Val (Obj α)) : Write α → List (TextWord α ω)
  | .putAt x i => [push x, lit i, push c, Protocols.putAt P]
  | .putXY v x y => [push v, lit x, lit y, push c, Protocols.putXY]
  | .dPush x => [push x, push c, Protocols.dPush]
  | .stringPush ch => [push ch, push c, Protocols.stringPush]
  | .dictSet v k => [push v, push k, push c, Protocols.dictSet P]
  | .dictDel k => [push k, push c, Protocols.dictDel P]
  | .setAdd x => [push x, push c, Protocols.setAdd P]
  | .setDel x => [push x, push c, Protocols.setDel P]

/-- The original and its copies in the order in which they were made, and the machine. -/
abbrev Copies (α ω : Type) : Type := List (Val (Obj α)) × Machine (Obj α) (Returns α ω)

def Act.step : Act α → Copies α ω → Except Fault (Copies α ω)
  | .clone i, (objs, m) =>
    match objs[i]? with
    | some c => seq [push c, Protocols.clone] m >>= fun m =>
      match m.stack with
      | copy :: st => .ok (objs ++ [copy], { m with stack := st })
      | [] => .error .underflow
    | none => .error .missing
  | .write i w, (objs, m) =>
    match objs[i]? with
    | some c => seq (w.words P c) m >>= fun m => .ok (objs, m)
    | none => .error .missing

def Act.run : List (Act α) → Copies α ω → Except Fault (Copies α ω)
  | [], s => .ok s
  | act :: acts, s => act.step P s >>= Act.run acts

/-! Contents on their own. -/

/-- What a write makes of the contents of a collection of the class of `c`. -/
def Write.applied : Val (Obj α) → Write α → Store (Obj α) → Option (Store (Obj α))
  | .grid _ _ _, .putAt x i, .cells xs =>
    if 0 ≤ i ∧ i < xs.length then some (.cells (xs.set i.toNat x)) else none
  | .darray _, .putAt x i, .rawvec xs | .string _, .putAt x i, .rawvec xs =>
    if 0 ≤ i then
      some (.rawvec ((xs ++ List.replicate (i.toNat + 1 - xs.length) P.filler).set i.toNat x))
    else none
  | .grid w _ _, .putXY v x y, .cells xs => some (.cells (xs.set (x + y * w).toNat v))
  | .darray _, .dPush x, .rawvec xs => some (.rawvec (xs ++ [x]))
  | .string _, .stringPush ch, .rawvec xs => some (.rawvec (xs ++ [ch]))
  | .dict _, .dictSet v k, .hash entries => some (.hash (P.setAt v k entries))
  | .dict _, .dictDel k, .hash entries => some (.hash (P.deleteAt k entries))
  | .set _, .setAdd x, .hashset xs => some (.hashset (P.adjoin x xs))
  | .set _, .setDel x, .hashset xs => some (.hashset (P.delete x xs))
  | _, _, _ => none

/-- A copy starts with the contents of its original; a write changes those that it is addressed to. -/
def Act.change (c : Val (Obj α)) : Act α → List (Store (Obj α)) → Option (List (Store (Obj α)))
  | .clone i, fam => fam[i]?.map fun s => fam ++ [s]
  | .write i w, fam => fam[i]?.bind fun s => (w.applied P c s).map fun s => fam.set i s

def Act.changes (c : Val (Obj α)) : List (Act α) → List (Store (Obj α)) →
    Option (List (Store (Obj α)))
  | [], fam => some fam
  | act :: acts, fam => (act.change P c fam).bind (Act.changes c acts)

/-- The writes to the `j`th collection alone. -/
def Act.own (j : Nat) : List (Act α) → List (Write α)
  | [] => []
  | .clone _ :: acts => Act.own j acts
  | .write i w :: acts => if i = j then w :: Act.own j acts else Act.own j acts

end Acts

/-! Classes. -/

/-- A collection of the library and contents that it can have. -/
def Library : Val (Obj α) → Store (Obj α) → Prop
  | .grid w h _, .cells xs => (xs.length : Int) = w * h
  | .darray _, .rawvec _ | .string (.darray _), .rawvec _ | .dict _, .hash _ | .set _, .hashset _ => True
  | _, _ => False

def IsString : Val (Obj α) → Prop
  | .string _ => True
  | _ => False

/-- The collection over another store; a string keeps its characters. -/
def moved (a : Nat) : Val (Obj α) → Val (Obj α)
  | .grid w h _ => .grid w h a
  | .darray _ => .darray a
  | .dict _ => .dict a
  | .set _ => .set a
  | c => c

def InGrid (w h x y : Int) : Prop := 0 ≤ x ∧ x < w ∧ 0 ≤ y ∧ y < h

/-- `at-xy!` goes to a cell of the grid. -/
def Act.InBounds : Val (Obj α) → Act α → Prop
  | .grid w h _, .write _ (.putXY _ x y) => InGrid w h x y
  | _, _ => True

section Classes
variable (P : TextProgram α ω) (c : Val (Obj α)) (s : Store (Obj α)) (a : Nat)

theorem moved_string (h : IsString c) : moved a c = c := by
  cases c with
  | string chars => rfl
  | _ => exact h.elim

theorem storeOf_moved (hLibrary : Library c s) (h : ¬ IsString c) : storeOf (moved a c) = a := by
  cases c with
  | string chars => exact absurd trivial h
  | grid | darray | dict | set => rfl
  | _ => exact hLibrary.elim

theorem library_moved : Library (moved a c) s ↔ Library c s := by
  cases c <;> cases s <;> rfl

theorem applied_moved (w : Write α) : w.applied P (moved a c) s = w.applied P c s := by
  cases c <;> cases w <;> cases s <;> rfl

theorem isString_moved : IsString (moved a c) ↔ IsString c := by
  cases c <;> rfl

theorem moved_moved (b : Nat) : moved b (moved a c) = moved b c := by
  cases c <;> rfl

theorem inBounds_moved (act : Act α) : act.InBounds (moved a c) ↔ act.InBounds c := by
  cases act with
  | clone i => cases c <;> rfl
  | write i w => cases c <;> cases w <;> rfl

end Classes

/-! Single words. -/

/-- A row of cells as a grid sees it: the places of distinct pairs are distinct. -/
theorem gridPlace_lt {w h x y : Int} (hCell : InGrid w h x y) :
    0 ≤ x + y * w ∧ x + y * w < w * h := by
  obtain ⟨hx, hxw, hy, hyh⟩ := hCell
  have hBelow : y * w ≤ (h - 1) * w := Int.mul_le_mul_of_nonneg_right (by omega) (by omega)
  have hZero : 0 ≤ y * w := Int.mul_nonneg hy (by omega)
  have hEq : (h - 1) * w = w * h - w := by rw [Int.sub_mul, Int.one_mul, Int.mul_comm]
  omega

theorem gridPlace_injective {w h x y x' y' : Int} (hCell : InGrid w h x y) (hCell' : InGrid w h x' y')
    (hSame : x + y * w = x' + y' * w) : x = x' ∧ y = y' := by
  obtain ⟨hx, hxw, -, -⟩ := hCell
  obtain ⟨hx', hxw', -, -⟩ := hCell'
  have hw : w ≠ 0 := by omega
  have hRow : y = y' := by
    have hLeft : (x + y * w) / w = y := by
      rw [Int.add_mul_ediv_right _ _ hw, Int.ediv_eq_zero_of_lt hx hxw, Int.zero_add]
    have hRight : (x' + y' * w) / w = y' := by
      rw [Int.add_mul_ediv_right _ _ hw, Int.ediv_eq_zero_of_lt hx' hxw', Int.zero_add]
    rw [← hLeft, ← hRight, hSame]
  subst hRow
  exact ⟨by omega, rfl⟩

/-- The code ends like the contents on their own: in a fault with none, else in machines related to
them. -/
def Follows {σ τ : Type} (R : σ → τ → Prop) (r : Except Fault σ) : Option τ → Prop
  | some t => ∃ s, r = .ok s ∧ R s t
  | none => ∃ e, r = .error e

section Words
variable (P : TextProgram α ω) {h : List (Store (Obj α))} (st : List (Val (Obj α))) (fr : List LoopFrame)
  (wd : Returns α ω)

/-- The machine with its store `a` replaced by the new contents. -/
def Replaced (m : Machine (Obj α) (Returns α ω)) (a : Nat) (m' : Machine (Obj α) (Returns α ω))
    (s : Store (Obj α)) : Prop := m' = { m with heap := m.heap.set a s }

theorem cellsSet_follows {a : Nat} {xs : List (Val (Obj α))} (ha : h[a]? = some (.cells xs)) (i : Int)
    (x : Val (Obj α)) :
    Follows (Replaced ⟨st, fr, h, wd⟩ a) (cellsSet ⟨.int i :: .addr a :: x :: st, fr, h, wd⟩)
      (if 0 ≤ i ∧ i < xs.length then some (.cells (xs.set i.toNat x)) else none) := by
  have hRun : cellsSet (⟨.int i :: .addr a :: x :: st, fr, h, wd⟩ : Machine (Obj α) (Returns α ω)) =
      if 0 ≤ i ∧ i < xs.length then .ok ⟨st, fr, h.set a (.cells (xs.set i.toNat x)), wd⟩
      else .error .bounds := by
    rw [cellsSet, bind1_run]
    simp only [withStore_run _ _ _ _ (cells?_of ha), bind1_run]
    rfl
  rw [hRun]
  split
  · exact ⟨_, rfl, rfl⟩
  · exact ⟨_, rfl⟩

theorem rawvecSet_follows {a : Nat} {xs : List (Val (Obj α))} (ha : h[a]? = some (.rawvec xs)) (i : Int)
    (x : Val (Obj α)) :
    Follows (Replaced ⟨st, fr, h, wd⟩ a) (rawvecSet P ⟨.addr a :: .int i :: x :: st, fr, h, wd⟩)
      (if 0 ≤ i then
        some (.rawvec ((xs ++ List.replicate (i.toNat + 1 - xs.length) P.filler).set i.toNat x))
      else none) := by
  have hRun : rawvecSet P (⟨.addr a :: .int i :: x :: st, fr, h, wd⟩ : Machine (Obj α) (Returns α ω)) =
      if 0 ≤ i then
        .ok ⟨st, fr, h.set a
          (.rawvec ((xs ++ List.replicate (i.toNat + 1 - xs.length) P.filler).set i.toNat x)), wd⟩
      else .error .bounds := by
    rw [rawvecSet, withStore_run _ _ _ _ (rawvec?_of ha), bind2_run]
    rfl
  rw [hRun]
  split
  · exact ⟨_, rfl, rfl⟩
  · exact ⟨_, rfl⟩

theorem gridCells_run (w ht : Int) (a : Nat) (st : List (Val (Obj α))) :
    gridCells (⟨.grid w ht a :: st, fr, h, wd⟩ : Machine (Obj α) (Returns α ω)) =
      .ok ⟨.addr a :: st, fr, h, wd⟩ := rfl

/-- The place of a cell, and the store under it. -/
theorem gridPlace_run (w ht x y : Int) (a : Nat) (rest : List (TextWord α ω)) :
    seq (dup :: gridCells :: toR :: gridIndex :: fromR :: swap :: rest)
        (⟨.grid w ht a :: .int y :: .int x :: st, fr, h, wd⟩ : Machine (Obj α) (Returns α ω)) =
      seq rest ⟨.int (x + y * w) :: .addr a :: st, fr, h, wd⟩ := by
  have hIndex : ∀ wd, gridIndex (⟨.grid w ht a :: .int y :: .int x :: st, fr, h, wd⟩ :
      Machine (Obj α) (Returns α ω)) = .ok ⟨.int (x + y * w) :: st, fr, h, wd⟩ := by
    intro wd
    have hWidth : gridW (⟨.grid w ht a :: .int y :: .int x :: st, fr, h, wd⟩ :
        Machine (Obj α) (Returns α ω)) = .ok ⟨.int w :: .int y :: .int x :: st, fr, h, wd⟩ := rfl
    simp only [gridIndex, seq_cons, hWidth, ok_bind, times, plus, int2_run, seq_nil]
  obtain ⟨rs, more⟩ := wd
  simp only [seq_cons, dup_run, ok_bind, gridCells_run, toR_run, hIndex, fromR_run, swap_run]

theorem putXY_run {a : Nat} {xs : List (Val (Obj α))} (ha : h[a]? = some (.cells xs)) {w ht x y : Int}
    (hLength : (xs.length : Int) = w * ht) (hCell : InGrid w ht x y) (v : Val (Obj α)) :
    putXY ⟨.grid w ht a :: .int y :: .int x :: v :: st, fr, h, wd⟩ =
      .ok ⟨st, fr, h.set a (.cells (xs.set (x + y * w).toNat v)), wd⟩ := by
  have hPlace := gridPlace_lt hCell
  rw [← hLength] at hPlace
  rw [putXY, gridPlace_run, seq_cons, bind_seq_nil, cellsSet, bind1_run]
  simp only [withStore_run _ _ _ _ (cells?_of ha), bind1_run, if_pos hPlace]
  rfl

theorem atXY_run {a : Nat} {xs : List (Val (Obj α))} (ha : h[a]? = some (.cells xs)) {w ht x y : Int}
    (hCell : InGrid w ht x y) {v : Val (Obj α)} (hv : xs[(x + y * w).toNat]? = some v) :
    atXY ⟨.grid w ht a :: .int y :: .int x :: st, fr, h, wd⟩ = .ok ⟨v :: st, fr, h, wd⟩ := by
  have hPlace := gridPlace_lt hCell
  rw [atXY, gridPlace_run, seq_cons, bind_seq_nil, cellsAt, bind1_run,
    withStore_run _ _ _ _ (cells?_of ha)]
  simp only [nth, if_pos hPlace.1, hv, push_run]

theorem follows_seq {r : Except Fault (Machine (Obj α) (Returns α ω))}
    {m : Machine (Obj α) (Returns α ω)} {a : Nat} {t : Option (Store (Obj α))}
    (h : Follows (Replaced m a) r t) : Follows (Replaced m a) (r >>= seq []) t := by
  rwa [bind_seq_nil]

/-! The words of a table and of a set. -/

theorem dictSet_run {a : Nat} {entries : List (Val (Obj α) × Val (Obj α))}
    (ha : h[a]? = some (.hash entries)) (v k : Val (Obj α)) :
    dictSet P ⟨.dict a :: k :: v :: st, fr, h, wd⟩ =
      .ok ⟨st, fr, h.set a (.hash (P.setAt v k entries)), wd⟩ := by
  have hData : dictData (⟨.dict a :: k :: v :: st, fr, h, wd⟩ : Machine (Obj α) (Returns α ω)) =
      .ok ⟨.addr a :: k :: v :: st, fr, h, wd⟩ := rfl
  rw [dictSet, seq_cons, hData, ok_bind, seq_cons, bind_seq_nil, hashSet,
    withStore_run _ _ _ _ (hash?_of ha)]
  rfl

theorem dictDel_run {a : Nat} {entries : List (Val (Obj α) × Val (Obj α))}
    (ha : h[a]? = some (.hash entries)) (k : Val (Obj α)) :
    dictDel P ⟨.dict a :: k :: st, fr, h, wd⟩ =
      .ok ⟨st, fr, h.set a (.hash (P.deleteAt k entries)), wd⟩ := by
  have hData : dictData (⟨.dict a :: k :: st, fr, h, wd⟩ : Machine (Obj α) (Returns α ω)) =
      .ok ⟨.addr a :: k :: st, fr, h, wd⟩ := rfl
  rw [dictDel, seq_cons, hData, ok_bind, seq_cons, bind_seq_nil, hashDel,
    withStore_run _ _ _ _ (hash?_of ha)]
  rfl

theorem setAdd_run {a : Nat} {xs : List (Val (Obj α))} (ha : h[a]? = some (.hashset xs))
    (x : Val (Obj α)) :
    setAdd P ⟨.set a :: x :: st, fr, h, wd⟩ = .ok ⟨st, fr, h.set a (.hashset (P.adjoin x xs)), wd⟩ := by
  have hData : setData (⟨.set a :: x :: st, fr, h, wd⟩ : Machine (Obj α) (Returns α ω)) =
      .ok ⟨.addr a :: x :: st, fr, h, wd⟩ := rfl
  rw [setAdd, seq_cons, hData, ok_bind, seq_cons, bind_seq_nil, hsAdd,
    withStore_run _ _ _ _ (hashset?_of ha)]
  rfl

theorem setDel_run {a : Nat} {xs : List (Val (Obj α))} (ha : h[a]? = some (.hashset xs))
    (x : Val (Obj α)) :
    setDel P ⟨.set a :: x :: st, fr, h, wd⟩ = .ok ⟨st, fr, h.set a (.hashset (P.delete x xs)), wd⟩ := by
  have hData : setData (⟨.set a :: x :: st, fr, h, wd⟩ : Machine (Obj α) (Returns α ω)) =
      .ok ⟨.addr a :: x :: st, fr, h, wd⟩ := rfl
  rw [setDel, seq_cons, hData, ok_bind, seq_cons, bind_seq_nil, hsDel,
    withStore_run _ _ _ _ (hashset?_of ha)]
  rfl

/-- Every write of the library does to the store of its collection what it does to the contents. -/
theorem write_follows {c : Val (Obj α)} {s : Store (Obj α)} (hs : h[storeOf c]? = some s)
    (hLibrary : Library c s) (w : Write α) {i : Nat} (hIn : (Act.write i w).InBounds c) :
    Follows (Replaced ⟨st, fr, h, wd⟩ (storeOf c)) (seq (w.words P c) ⟨st, fr, h, wd⟩)
      (w.applied P c s) := by
  match c, s, hLibrary with
  | .grid wide high a, .cells xs, hLength =>
    cases w with
    | putAt x i => exact follows_seq (follows_seq (cellsSet_follows st fr wd hs i x))
    | putXY v x y =>
      have hRun := putXY_run st fr wd (show h[a]? = some (.cells xs) from hs) hLength hIn v
      refine ⟨_, ?_, rfl⟩
      simp only [Write.words, seq_cons, push_run, lit_run, ok_bind, hRun, seq_nil, storeOf]
    | _ => exact ⟨_, rfl⟩
  | .darray a, .rawvec xs, _ =>
    cases w with
    | putAt x i => exact follows_seq (follows_seq (rawvecSet_follows P st fr wd hs i x))
    | dPush x =>
      have hRun := dPush_run st fr wd (show h[a]? = some (.rawvec xs) from hs) x
      refine ⟨_, ?_, rfl⟩
      simp only [Write.words, seq_cons, push_run, ok_bind, hRun, seq_nil, storeOf]
    | _ => exact ⟨_, rfl⟩
  | .string (.darray a), .rawvec xs, _ =>
    cases w with
    | putAt x i => exact follows_seq (follows_seq (follows_seq (rawvecSet_follows P st fr wd hs i x)))
    | stringPush ch =>
      have hPush : stringPush ⟨.string (.darray a) :: ch :: st, fr, h, wd⟩ =
          dPush ⟨.darray a :: ch :: st, fr, h, wd⟩ >>= seq [] := rfl
      have hRun := dPush_run st fr wd (show h[a]? = some (.rawvec xs) from hs) ch
      refine ⟨_, ?_, rfl⟩
      simp only [Write.words, seq_cons, push_run, ok_bind, hPush, hRun, seq_nil, storeOf]
    | _ => exact ⟨_, rfl⟩
  | .dict a, .hash entries, _ =>
    cases w with
    | dictSet v k =>
      have hRun := dictSet_run P st fr wd (show h[a]? = some (.hash entries) from hs) v k
      refine ⟨_, ?_, rfl⟩
      simp only [Write.words, seq_cons, push_run, ok_bind, hRun, seq_nil, storeOf]
    | dictDel k =>
      have hRun := dictDel_run P st fr wd (show h[a]? = some (.hash entries) from hs) k
      refine ⟨_, ?_, rfl⟩
      simp only [Write.words, seq_cons, push_run, ok_bind, hRun, seq_nil, storeOf]
    | _ => exact ⟨_, rfl⟩
  | .set a, .hashset xs, _ =>
    cases w with
    | setAdd x =>
      have hRun := setAdd_run P st fr wd (show h[a]? = some (.hashset xs) from hs) x
      refine ⟨_, ?_, rfl⟩
      simp only [Write.words, seq_cons, push_run, ok_bind, hRun, seq_nil, storeOf]
    | setDel x =>
      have hRun := setDel_run P st fr wd (show h[a]? = some (.hashset xs) from hs) x
      refine ⟨_, ?_, rfl⟩
      simp only [Write.words, seq_cons, push_run, ok_bind, hRun, seq_nil, storeOf]
    | _ => exact ⟨_, rfl⟩

theorem applied_library {c : Val (Obj α)} {s t : Store (Obj α)} (hLibrary : Library c s) {w : Write α}
    (hw : w.applied P c s = some t) : Library c t := by
  match c, s, hLibrary with
  | .grid wide high a, .cells xs, hLength =>
    cases w with
    | putAt x i =>
      rw [Write.applied] at hw
      split at hw
      · obtain rfl := Option.some.inj hw
        exact (congrArg Nat.cast List.length_set).trans hLength
      · cases hw
    | putXY v x y =>
      obtain rfl := Option.some.inj hw
      exact (congrArg Nat.cast List.length_set).trans hLength
    | _ => cases hw
  | .darray a, .rawvec xs, _ | .string (.darray a), .rawvec xs, _ =>
    cases w with
    | putAt x i =>
      rw [Write.applied] at hw
      split at hw
      · obtain rfl := Option.some.inj hw
        trivial
      · cases hw
    | dPush x | stringPush x =>
      cases hw
      all_goals trivial
    | _ => cases hw
  | .dict a, .hash entries, _ | .set a, .hashset xs, _ =>
    cases w with
    | dictSet | dictDel | setAdd | setDel =>
      cases hw
      all_goals trivial
    | _ => cases hw

/-! Copies. -/

theorem clone_string (chars : Val (Obj α)) :
    seq [push (.string chars), clone] (⟨st, fr, h, wd⟩ : Machine (Obj α) (Returns α ω)) =
      .ok ⟨.string chars :: st, fr, h, wd⟩ := rfl

theorem shallowClone_run {a : Nat} {s : Store (Obj α)} (hs : h[a]? = some s) :
    shallowClone (⟨.addr a :: st, fr, h, wd⟩ : Machine (Obj α) (Returns α ω)) =
      .ok ⟨.addr h.length :: st, fr, h ++ [s], wd⟩ := by
  rw [shallowClone, bind1_run]
  simp only [hs]
  rfl

theorem clone_run {c : Val (Obj α)} {s : Store (Obj α)} (hs : h[storeOf c]? = some s)
    (hLibrary : Library c s) (hString : ¬ IsString c) :
    seq [push c, clone] (⟨st, fr, h, wd⟩ : Machine (Obj α) (Returns α ω)) =
      .ok ⟨moved h.length c :: st, fr, h ++ [s], wd⟩ := by
  match c, s, hLibrary with
  | .grid wide high a, .cells xs, _ =>
    have hStore := fun st => shallowClone_run st fr wd (show h[a]? = some (.cells xs) from hs)
    have hW : ∀ st, gridW (⟨.grid wide high a :: st, fr, h, wd⟩ : Machine (Obj α) (Returns α ω)) =
        .ok ⟨.int wide :: st, fr, h, wd⟩ := fun _ => rfl
    have hH : ∀ st, gridH (⟨.grid wide high a :: st, fr, h, wd⟩ : Machine (Obj α) (Returns α ω)) =
        .ok ⟨.int high :: st, fr, h, wd⟩ := fun _ => rfl
    have hMake : ∀ a' h', makeGrid (⟨.addr a' :: .int high :: .int wide :: st, fr, h', wd⟩ :
        Machine (Obj α) (Returns α ω)) = .ok ⟨.grid wide high a' :: st, fr, h', wd⟩ := fun _ _ => rfl
    simp only [seq_cons, push_run, ok_bind, clone, dispatch, cloneMethod, dup_run, hW, over_run, hH, rot_run,
      gridCells_run, hStore, hMake, seq_nil, moved]
  | .darray a, .rawvec xs, _ =>
    have hStore := shallowClone_run st fr wd (show h[a]? = some (.rawvec xs) from hs)
    exact congrArg (· >>= seq [makeDarray] >>= seq []) hStore
  | .string (.darray a), .rawvec xs, _ => exact absurd trivial hString
  | .dict a, .hash entries, _ =>
    have hStore := shallowClone_run st fr wd (show h[a]? = some (.hash entries) from hs)
    exact congrArg (· >>= seq [makeDict] >>= seq []) hStore
  | .set a, .hashset xs, _ =>
    have hStore := shallowClone_run st fr wd (show h[a]? = some (.hashset xs) from hs)
    exact congrArg (· >>= seq [makeSet] >>= seq []) hStore

end Words

end FactorForth.Correctness
