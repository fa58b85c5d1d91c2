import FactorForth.Correctness.StreamWords
import Mathlib.Data.List.Forall2

/-! Splitting and joining undo each other, and the lines of a text are the text without its newlines. -/

namespace FactorForth.Correctness
open FactorForth.Library FactorForth.Protocols
open FactorForth.Semantics (LoopFrame)
variable {α ω : Type}

/-- The collection has strings with these texts. -/
def Fields (h : List (Store (Obj α))) (coll : Val (Obj α)) (fields : List (List Int)) : Prop :=
  ∃ vals, Holds h coll vals ∧ List.Forall₂ (Text h) vals fields

/-! Splitting. -/

/-- The new strings, one store each from `base` on. -/
def fieldVals (base n : Nat) : List (Val (Obj α)) := (List.range n).map fun k => .string (.darray (base + k))

def fieldStores (fields : List (List Int)) : List (Store (Obj α)) :=
  fields.map fun f => .rawvec (f.map .int)

/-- The heap while `split` reads: the reader, the collection and its fields are new. -/
def splitHeap (h : List (Store (Obj α))) (buf : Val (Obj α)) (p : Nat) (fields : List (List Int)) :
    List (Store (Obj α)) :=
  h ++ .cells [buf, .int p] :: .rawvec (fieldVals (h.length + 2) fields.length) :: fieldStores fields

theorem fieldVals_succ (base n : Nat) : (fieldVals base (n + 1) : List (Val (Obj α))) =
    fieldVals base n ++ [.string (.darray (base + n))] := by
  rw [fieldVals, List.range_succ, List.map_append]
  rfl

theorem length_fieldVals (base n : Nat) : (fieldVals base n : List (Val (Obj α))).length = n := by
  rw [fieldVals, List.length_map, List.length_range]

theorem texts_here (front : List (Store (Obj α))) (fields : List (List Int)) :
    List.Forall₂ (Text (front ++ fieldStores fields)) (fieldVals front.length fields.length) fields := by
  refine List.forall₂_iff_get.2 ⟨length_fieldVals _ _, fun i hVal hField => ?_⟩
  refine ⟨.darray (front.length + i), ?_, ?_⟩
  · simp only [fieldVals, List.get_eq_getElem, List.getElem_map, List.getElem_range]
  · show (front ++ fieldStores fields)[front.length + i]? = _
    rw [List.getElem?_append_right (Nat.le_add_right _ _), Nat.add_sub_cancel_left, fieldStores,
      List.getElem?_map, List.getElem?_eq_getElem hField]
    rfl

section Split
variable {P : TextProgram α ω} (hP : Plain P) {h : List (Store (Obj α))} {buf : Val (Obj α)}
  {cs : List Int} (st : List (Val (Obj α))) (fr : List LoopFrame) (w : Returns α ω)

theorem splitHeap_reader (p : Nat) (fields : List (List Int)) :
    (splitHeap h buf p fields)[h.length]? = some (.cells [buf, .int p]) := getElem?_here h _ _

theorem splitHeap_move (p q : Nat) (fields : List (List Int)) :
    (splitHeap h buf p fields).set h.length (.cells [buf, .int q]) = splitHeap h buf q fields :=
  set_here h _ _ _

/-- The collection lies behind the reader. -/
theorem splitHeap_coll (p : Nat) (fields : List (List Int)) : splitHeap h buf p fields =
    (h ++ [.cells [buf, .int p]]) ++
      .rawvec (fieldVals (h.length + 2) fields.length) :: fieldStores fields := by
  rw [List.append_assoc]
  rfl

/-- The last field lies last. -/
theorem splitHeap_last (p : Nat) (fields : List (List Int)) (field : List Int) :
    splitHeap h buf p (fields ++ [field]) =
      (h ++ .cells [buf, .int p] :: .rawvec (fieldVals (h.length + 2) (fields.length + 1)) ::
        fieldStores fields) ++ [.rawvec (field.map .int)] := by
  rw [splitHeap, fieldStores, List.map_append, List.length_append, List.append_assoc]
  rfl

theorem coll_holds (p : Nat) (fields : List (List Int)) :
    Holds (splitHeap h buf p fields) (.darray (h.length + 1))
      (fieldVals (h.length + 2) fields.length) := by
  rw [splitHeap_coll]
  have hLength : h.length + 1 = (h ++ [Store.cells [buf, .int p]]).length := by
    rw [List.length_append, List.length_singleton]
  rw [hLength]
  exact getElem?_here _ _ _

theorem fields_split (p : Nat) (fields : List (List Int)) :
    Fields (splitHeap h buf p fields) (.darray (h.length + 1)) fields := by
  refine ⟨_, coll_holds p fields, ?_⟩
  have hTexts := texts_here (h ++ [.cells [buf, .int p],
    .rawvec (fieldVals (h.length + 2) fields.length)]) fields
  rw [List.append_assoc, List.length_append] at hTexts
  exact hTexts

theorem splitHeap_length (p : Nat) (fields : List (List Int)) :
    (splitHeap h buf p fields).length = h.length + 2 + fields.length := by
  rw [splitHeap, List.length_append, List.length_cons, List.length_cons, fieldStores, List.length_map]
  omega

/-- A field is added. -/
theorem splitHeap_push (p : Nat) (fields : List (List Int)) :
    dPush (⟨.darray (h.length + 1) :: .string (.darray (splitHeap h buf p fields).length) :: st, fr,
        splitHeap h buf p fields ++ [.rawvec []], w⟩ : Machine (Obj α) (Returns α ω)) =
      .ok ⟨st, fr, splitHeap h buf p (fields ++ [[]]), w⟩ := by
  have hLength : h.length + 1 = (h ++ [Store.cells [buf, .int p]]).length := by
    rw [List.length_append, List.length_singleton]
  rw [splitHeap_length, splitHeap_coll, List.append_assoc, List.cons_append, hLength, dPush_here,
    splitHeap_coll, fieldStores, fieldStores, List.map_append, List.length_append, List.length_singleton,
    fieldVals_succ]
  rfl

/-- A character is added to the last field. -/
theorem splitHeap_extend (p : Nat) (fields : List (List Int)) (field : List Int) (c : Int) :
    stringPush (⟨.string (.darray (h.length + 2 + fields.length)) :: .int c :: st, fr,
        splitHeap h buf p (fields ++ [field]), w⟩ : Machine (Obj α) (Returns α ω)) =
      .ok ⟨st, fr, splitHeap h buf p (fields ++ [field ++ [c]]), w⟩ := by
  have hLength : h.length + 2 + fields.length = (h ++ .cells [buf, .int p] ::
      .rawvec (fieldVals (h.length + 2) (fields.length + 1)) :: fieldStores fields).length := by
    rw [List.length_append, List.length_cons, List.length_cons, fieldStores, List.length_map]
    omega
  rw [splitHeap_last, splitHeap_last, hLength, stringPush_here, List.map_append]
  rfl

/-- The words of the loop of `split`. -/
def takeChar (P : TextProgram α ω) (delim : Val (Obj α)) : List (TextWord α ω) := [
  fetchR, readChar P,
  dup, eof? P, ifElse P
    [drop, lit (-1)]
    [dup, push delim, equal P, ifElse P
      [drop, newString, over_, dPush, lit 0]
      [over_, dup, size, oneMinus, swap, elementAt, stringPush, lit 0]]]

section Loop
variable {d : Int} (hBuf : Holds h buf (cs.map .int)) (rs : List (Val (Obj α))) (rest : ω)
include hP hBuf

theorem takeChar_end (fields : List (List Int)) :
    seq (takeChar P (.int d)) ⟨.darray (h.length + 1) :: st, fr, splitHeap h buf cs.length fields,
        ⟨.other (.reader h.length) :: rs, rest⟩⟩ =
      .ok ⟨.int (-1) :: .darray (h.length + 1) :: st, fr, splitHeap h buf cs.length fields,
        ⟨.other (.reader h.length) :: rs, rest⟩⟩ := by
  have hTruthy : P.truthy (.int (-1)) = true := rfl
  simp only [takeChar, seq_cons, fetchR_run, ok_bind,
    readChar_end _ _ _ (splitHeap_reader _ _) (hBuf.append _) rfl, dup_run, eof?_eof _ _ _ hP, ifElse_run,
    hTruthy, if_true, drop_run, lit_run, seq_nil]

theorem takeChar_delim {p : Nat} (hc : cs[p]? = some d) (fields : List (List Int)) :
    seq (takeChar P (.int d)) ⟨.darray (h.length + 1) :: st, fr, splitHeap h buf p fields,
        ⟨.other (.reader h.length) :: rs, rest⟩⟩ =
      .ok ⟨.int 0 :: .darray (h.length + 1) :: st, fr, splitHeap h buf (p + 1) (fields ++ [[]]),
        ⟨.other (.reader h.length) :: rs, rest⟩⟩ := by
  have hFalse : P.truthy (.int 0) = false := rfl
  have hTrue : P.truthy (.int (boolToFlag true)) = true := rfl
  simp only [takeChar, seq_cons, fetchR_run, ok_bind,
    readChar_next _ _ _ (splitHeap_reader _ _) (hBuf.append _) hc, splitHeap_move, dup_run,
    eof?_int _ _ _ hP, ifElse_run, hFalse, Bool.false_eq_true, if_false, push_run, equal_run, hP.same_int,
    decide_true, hTrue, if_true, drop_run, newString_run, over_run, splitHeap_push, lit_run, seq_nil]

theorem takeChar_other {p : Nat} {c : Int} (hc : cs[p]? = some c) (hne : c ≠ d)
    (fields : List (List Int)) (field : List Int) :
    seq (takeChar P (.int d)) ⟨.darray (h.length + 1) :: st, fr, splitHeap h buf p (fields ++ [field]),
        ⟨.other (.reader h.length) :: rs, rest⟩⟩ =
      .ok ⟨.int 0 :: .darray (h.length + 1) :: st, fr, splitHeap h buf (p + 1) (fields ++ [field ++ [c]]),
        ⟨.other (.reader h.length) :: rs, rest⟩⟩ := by
  have hFalse : P.truthy (.int 0) = false := rfl
  have hNo : P.truthy (.int (boolToFlag false)) = false := rfl
  have hColl := @coll_holds α h buf (p + 1) (fields ++ [field])
  have hCount : (fieldVals (h.length + 2) (fields ++ [field]).length : List (Val (Obj α))) =
      fieldVals (h.length + 2) fields.length ++ [.string (.darray (h.length + 2 + fields.length))] := by
    rw [List.length_append, List.length_singleton, fieldVals_succ]
  rw [hCount] at hColl
  have hBack : ((fieldVals (h.length + 2) fields.length ++
      [.string (.darray (h.length + 2 + fields.length))] : List (Val (Obj α))).length : Int) - 1 =
      (fieldVals (h.length + 2) fields.length : List (Val (Obj α))).length := by
    rw [List.length_append, List.length_singleton]
    omega
  simp only [takeChar, seq_cons, fetchR_run, ok_bind,
    readChar_next _ _ _ (splitHeap_reader _ _) (hBuf.append _) hc, splitHeap_move, dup_run,
    eof?_int _ _ _ hP, ifElse_run, hFalse, Bool.false_eq_true, if_false, push_run, equal_run, hP.same_int,
    hne, decide_false, hNo, over_run, size_run _ _ _ hColl, oneMinus, int1_run, hBack, swap_run,
    elementAt_item _ _ _ hColl List.prefix_rfl, splitHeap_extend, lit_run, seq_nil]

/-- What is read goes to the last field up to the first delimiter, and to new fields from there on. -/
theorem split_loop (later : List Int) : ∀ (done : List Int) (fields : List (List Int)) (field : List Int)
    (fuel : Nat), cs = done ++ later → later.length < fuel →
    untilLoop P (takeChar P (.int d)) fuel ⟨.darray (h.length + 1) :: st, fr,
        splitHeap h buf done.length (fields ++ [field]), ⟨.other (.reader h.length) :: rs, rest⟩⟩ =
      .ok ⟨.darray (h.length + 1) :: st, fr,
        splitHeap h buf cs.length (fields ++ (later.splitOn d).modifyHead (field ++ ·)),
        ⟨.other (.reader h.length) :: rs, rest⟩⟩ := by
  induction later with
  | nil =>
    intro done fields field fuel hcs hFuel
    obtain ⟨fuel, rfl⟩ := Nat.exists_eq_add_of_le' hFuel
    rw [List.append_nil] at hcs
    subst hcs
    rw [List.splitOn_nil, List.modifyHead_cons, List.append_nil]
    exact untilLoop_end (takeChar_end hP st fr hBuf rs rest _) rfl fuel
  | cons c later ih =>
    intro done fields field fuel hcs hFuel
    obtain ⟨fuel, rfl⟩ : ∃ less, fuel = less + 1 := ⟨fuel - 1, by omega⟩
    rw [List.length_cons] at hFuel
    have hAt : cs[done.length]? = some c := hcs ▸ getElem?_here done later c
    have hDone : (done ++ [c]).length = done.length + 1 := by
      rw [List.length_append, List.length_singleton]
    have hNext : cs = (done ++ [c]) ++ later := by rw [hcs, List.append_assoc, List.singleton_append]
    rw [List.splitOn_cons_eq_if_modifyHead]
    by_cases hDelim : c = d
    · subst hDelim
      have hRest := ih (done ++ [c]) (fields ++ [field]) [] fuel hNext (by omega)
      rw [hDone] at hRest
      rw [untilLoop_next (takeChar_delim hP st fr hBuf rs rest hAt _) rfl, hRest]
      have hSame : (later.splitOn c).modifyHead ([] ++ ·) = later.splitOn c := by
        cases later.splitOn c <;> rfl
      rw [hSame, if_pos (beq_self_eq_true c), List.modifyHead_cons, List.append_nil, List.append_assoc]
      rfl
    · have hRest := ih (done ++ [c]) fields (field ++ [c]) fuel hNext (by omega)
      rw [hDone] at hRest
      rw [untilLoop_next (takeChar_other hP st fr hBuf rs rest hAt hDelim _ _) rfl, hRest,
        if_neg (by simpa using hDelim), List.modifyHead_modifyHead]
      simp [Function.comp_def]

end Loop

@[simp] theorem stringToReader_run (chars : Val (Obj α)) :
    stringToReader (⟨.string chars :: st, fr, h, w⟩ : Machine (Obj α) (Returns α ω)) =
      .ok ⟨.other (.reader h.length) :: st, fr, h ++ [.cells [chars, .int 0]], w⟩ := rfl

/-- The collection begins with one empty field. -/
theorem split_start (buf : Val (Obj α)) :
    seq [newDarray, newString, over_, dPush] (⟨st, fr, h ++ [.cells [buf, .int 0]], w⟩ :
        Machine (Obj α) (Returns α ω)) =
      .ok ⟨.darray (h.length + 1) :: st, fr, splitHeap h buf 0 [[]], w⟩ := by
  have hEmpty : h ++ [.cells [buf, .int 0]] ++ [.rawvec []] = splitHeap h buf 0 [] := by
    rw [List.append_assoc]
    rfl
  have hLength : (h ++ [Store.cells [buf, .int 0]]).length = h.length + 1 := by
    rw [List.length_append, List.length_singleton]
  simp only [seq_cons, newDarray_run, ok_bind, hEmpty, hLength, newString_run, over_run, splitHeap_push,
    seq_nil]
  rfl

include hP in
theorem split_run {s : Val (Obj α)} (hs : Text h s cs) (d : Int) {fuel : Nat} (hFuel : cs.length < fuel) :
    ∃ buf, split P fuel ⟨.int d :: s :: st, fr, h, w⟩ =
      .ok ⟨.darray (h.length + 1) :: st, fr, splitHeap h buf cs.length (cs.splitOn d), w⟩ := by
  obtain ⟨buf, rfl, hBuf⟩ := hs
  obtain ⟨rs, rest⟩ := w
  refine ⟨buf, ?_⟩
  have hLoop := split_loop (d := d) hP st fr hBuf rs rest cs [] [] [] fuel rfl hFuel
  have hSame : (cs.splitOn d).modifyHead ([] ++ ·) = cs.splitOn d := by
    cases cs.splitOn d <;> rfl
  rw [hSame] at hLoop
  have hSplit : split P fuel ⟨.int d :: .string buf :: st, fr, h, ⟨rs, rest⟩⟩ =
      seq ([push (.string buf), stringToReader, toR] ++ ([newDarray, newString, over_, dPush] ++
        [untilLoop P (takeChar P (.int d)) fuel, fromR, drop])) ⟨st, fr, h, ⟨rs, rest⟩⟩ := rfl
  have hReader : seq [push (.string buf), stringToReader, toR] (⟨st, fr, h, ⟨rs, rest⟩⟩ :
      Machine (Obj α) (Returns α ω)) =
      .ok ⟨st, fr, h ++ [.cells [buf, .int 0]], ⟨.other (.reader h.length) :: rs, rest⟩⟩ := by
    simp only [seq_cons, push_run, stringToReader_run, toR_run, ok_bind, seq_nil]
  rw [List.nil_append, List.length_nil] at hLoop
  rw [hSplit, seq_append, hReader, ok_bind, seq_append, split_start, ok_bind, seq_cons, hLoop, ok_bind]
  simp only [seq_cons, fromR_run, ok_bind, drop_run, seq_nil, List.nil_append]

end Split

/-! Joining. -/

theorem intercalate_snoc {β : Type} (sep : List β) {fields : List (List β)} (hne : fields ≠ [])
    (field : List β) : sep.intercalate (fields ++ [field]) = sep.intercalate fields ++ sep ++ field := by
  induction fields with
  | nil => exact absurd rfl hne
  | cons f fields ih =>
    cases fields with
    | nil => simp
    | cons g fields =>
      have hTail := ih (List.cons_ne_nil g fields)
      rw [List.cons_append, List.cons_append, List.intercalate_cons_cons, List.intercalate_cons_cons,
        ← List.cons_append, hTail]
      simp only [List.append_assoc]

section Join
variable {P : TextProgram α ω} {h : List (Store (Obj α))} (st : List (Val (Obj α))) (fr : List LoopFrame)
  (w : Returns α ω)

/-- The delimiter goes in front of every field but the first. -/
theorem joinDelim_run (n : Nat) (d : Int) (cs : List Int) :
    ifElse P [push (.int d), over_, stringPush] [] (⟨.int (boolToFlag (decide ((0 : Int) < n))) ::
        .string (.darray h.length) :: st, fr, h ++ [.rawvec (cs.map .int)], w⟩ :
          Machine (Obj α) (Returns α ω)) =
      .ok ⟨.string (.darray h.length) :: st, fr,
        h ++ [.rawvec ((cs ++ if n = 0 then [] else [d]).map .int)], w⟩ := by
  rw [ifElse_run, truthy_flag]
  by_cases hZero : n = 0
  · subst hZero
    rw [if_pos rfl, List.append_nil]
    rfl
  · have hPos : (0 : Int) < n := by omega
    rw [if_neg hZero, decide_eq_true hPos, if_pos rfl, List.map_append]
    simp only [seq_cons, push_run, ok_bind, over_run, stringPush_here, seq_nil]
    rfl

theorem join_run {coll : Val (Obj α)} {fields : List (List Int)} (hFields : Fields h coll fields) (d : Int) :
    join P ⟨.int d :: coll :: st, fr, h, w⟩ =
      .ok ⟨.string (.darray h.length) :: st, fr, h ++ [.rawvec (([d].intercalate fields).map .int)], w⟩ := by
  obtain ⟨vals, hColl, hTexts⟩ := hFields
  have hLength := hTexts.length_eq
  have hVals : (vals.zip fields).map Prod.fst = vals := List.map_fst_zip hLength.le
  have hFieldsOf : (vals.zip fields).map Prod.snd = fields := List.map_snd_zip hLength.ge
  simp only [join, bind2_run, seq_cons, newString_run, ok_bind, push_run,
    size_run _ _ _ (hColl.append _), lit_run]
  refine walk_then (vals.zip fields) (fun pre => ⟨.string (.darray h.length) :: st, fr,
    h ++ [.rawvec (([d].intercalate (pre.map Prod.snd)).map .int)], w⟩) 0 vals.length rfl ?_
    (fun pre x hp => ?_) ?_
  · rw [List.length_zip, ← hLength, Nat.min_self, Nat.zero_add]
  · have hPrefix : pre.map Prod.fst ++ [x.1] <+: vals := by
      have hMapped := hp.map Prod.fst
      rwa [hVals, List.map_append] at hMapped
    have hText : Text h x.1 x.2 :=
      List.forall₂_zip hTexts (hp.subset (List.mem_append_right _ (List.mem_singleton_self x)))
    have hNews : ∀ ys, Holds (h ++ [.rawvec ys]) coll vals := fun ys => hColl.append _
    have hIndex : (pre.map Prod.fst).length = pre.length := List.length_map _
    have hAt := fun st fr ys => elementAt_item st fr w (hNews ys) hPrefix
    simp only [hIndex] at hAt
    have hJoined : [d].intercalate ((pre ++ [x]).map Prod.snd) =
        [d].intercalate (pre.map Prod.snd) ++ (if pre.length = 0 then [] else [d]) ++ x.2 := by
      rw [List.map_append, List.map_singleton]
      rcases List.eq_nil_or_concat pre with rfl | ⟨_, _, rfl⟩
      · simp
      · rw [intercalate_snoc _ (by simp), if_neg (by simp)]
    simp only [Machine.inLoop, Nat.zero_add, seq_cons, seq_nil, index_run, ok_bind, lit_run, greaterThan,
      int2_run, joinDelim_run, push_run, swap_run, hAt, over_run, appendInto_run _ _ _ hText.holds, hJoined]
    rw [← List.map_append]
  · rw [hFieldsOf, seq_nil]

end Join

/-! Lines. -/

/-- What `read-line` leaves, and what of the text is left behind it. -/
def firstLine (later : List Int) : List Int := later.takeWhile (· != 10)

def behindLine (later : List Int) : List Int := (later.dropWhile (· != 10)).tail

theorem firstLine_cons {c : Int} (hne : c ≠ 10) (later : List Int) :
    firstLine (c :: later) = c :: firstLine later ∧ behindLine (c :: later) = behindLine later := by
  have hOther : (c != 10) = true := bne_iff_ne.mpr hne
  exact ⟨List.takeWhile_cons_of_pos hOther,
    congrArg List.tail (List.dropWhile_cons_of_pos (p := (· != 10)) hOther)⟩

theorem behindLine_suffix (later : List Int) : behindLine later <:+ later :=
  (List.tail_suffix _).trans (List.dropWhile_suffix _)

theorem behindLine_length {later : List Int} (hne : later ≠ []) :
    (behindLine later).length < later.length := by
  have hDrop := (List.dropWhile_suffix (l := later) (· != 10)).length_le
  have hPos := List.length_pos_iff.mpr hne
  rw [behindLine, List.length_tail]
  omega

/-- A line and what is behind it are the text without the newline between them. -/
theorem firstLine_append (later : List Int) :
    firstLine later ++ (behindLine later).filter (· != 10) = later.filter (· != 10) := by
  induction later with
  | nil => rfl
  | cons c later ih =>
    by_cases hNewline : c = 10
    · subst hNewline
      rfl
    · have hOther : (c != 10) = true := bne_iff_ne.mpr hNewline
      obtain ⟨hLine, hBehind⟩ := firstLine_cons hNewline later
      rw [hLine, hBehind, List.filter_cons_of_pos (p := (· != 10)) hOther, List.cons_append, ih]

/-- The words of the loop of `read-line`. -/
def takeLineChar (P : TextProgram α ω) : List (TextWord α ω) := [
  over_, readChar P,
  dup, eof? P, ifElse P
    [drop, lit (-1)]
    [dup, lit 10, equal P, ifElse P
      [drop, lit (-1)]
      [over_, stringPush, lit 0]]]

/-- The heap while `read-line` reads: its string is new. -/
def lineHeap (h : List (Store (Obj α))) (a : Nat) (buf : Val (Obj α)) (p : Nat) (line : List Int) :
    List (Store (Obj α)) := h.set a (.cells [buf, .int p]) ++ [.rawvec (line.map .int)]

section Lines
variable {P : TextProgram α ω} (hP : Plain P) {h : List (Store (Obj α))} {a p : Nat} {buf : Val (Obj α)}
  {cs : List Int} (st : List (Val (Obj α))) (fr : List LoopFrame) (w : Returns α ω)

theorem holds_store {c : Val (Obj α)} {xs : List (Val (Obj α))} (hc : Holds h c xs) :
    h[storeOf c]? = some (.cells xs) ∨ h[storeOf c]? = some (.rawvec xs) := by
  induction c with
  | grid width height b => exact .inl hc.1
  | darray b => exact .inr hc
  | string chars ih => exact ih hc
  | _ => exact hc.elim

/-- A text is no reader. -/
theorem reader_apart (hReader : h[a]? = some (.cells [buf, .int p])) (hBuf : Holds h buf (cs.map .int)) :
    storeOf buf ≠ a := by
  rintro rfl
  rcases holds_store hBuf with hStore | hStore
  · rw [hReader] at hStore
    have hSame := Store.cells.inj (Option.some.inj hStore)
    have hMem : buf ∈ cs.map Val.int := hSame ▸ List.mem_cons_self
    obtain ⟨c, -, rfl⟩ := List.mem_map.mp hMem
    exact hBuf.elim
  · rw [hReader] at hStore
    cases hStore

section Heap
variable (hReader : h[a]? = some (.cells [buf, .int p])) (q r : Nat) (line : List Int)
include hReader

theorem lineHeap_reader : (lineHeap h a buf q line)[a]? = some (.cells [buf, .int q]) := by
  obtain ⟨hLess, -⟩ := List.getElem?_eq_some_iff.1 hReader
  have hSet : a < (h.set a (.cells [buf, .int q])).length := by rwa [List.length_set]
  rw [lineHeap, List.getElem?_append_left hSet, List.getElem?_set_self hLess]

theorem lineHeap_move :
    (lineHeap h a buf q line).set a (.cells [buf, .int r]) = lineHeap h a buf r line := by
  obtain ⟨hLess, -⟩ := List.getElem?_eq_some_iff.1 hReader
  have hSet : a < (h.set a (.cells [buf, .int q])).length := by rwa [List.length_set]
  rw [lineHeap, List.set_append_left _ _ hSet, List.set_set]
  rfl

theorem lineHeap_holds (hBuf : Holds h buf (cs.map .int)) :
    Holds (lineHeap h a buf q line) buf (cs.map .int) :=
  (holds_set hBuf (reader_apart hReader hBuf) _).append _

end Heap

theorem lineHeap_push (q : Nat) (line : List Int) (c : Int) :
    stringPush (⟨.string (.darray h.length) :: .int c :: st, fr, lineHeap h a buf q line, w⟩ :
        Machine (Obj α) (Returns α ω)) =
      .ok ⟨st, fr, lineHeap h a buf q (line ++ [c]), w⟩ := by
  have hPush := @stringPush_here α ω (h.set a (.cells [buf, .int q])) st fr w [] (line.map .int) (.int c)
  rw [List.length_set] at hPush
  rw [lineHeap, hPush, lineHeap, List.map_append]
  rfl

section Loop
variable (hReader : h[a]? = some (.cells [buf, .int p])) (hBuf : Holds h buf (cs.map .int))
include hP hReader hBuf

theorem takeLineChar_end (line : List Int) :
    seq (takeLineChar P) ⟨.string (.darray h.length) :: .other (.reader a) :: st, fr,
        lineHeap h a buf cs.length line, w⟩ =
      .ok ⟨.int (-1) :: .string (.darray h.length) :: .other (.reader a) :: st, fr,
        lineHeap h a buf cs.length line, w⟩ := by
  have hTruthy : P.truthy (.int (-1)) = true := rfl
  simp only [takeLineChar, seq_cons, over_run, ok_bind,
    readChar_end _ _ _ (lineHeap_reader hReader _ _) (lineHeap_holds hReader _ _ hBuf) rfl, dup_run,
    eof?_eof _ _ _ hP, ifElse_run, hTruthy, if_true, drop_run, lit_run, seq_nil]

theorem takeLineChar_newline {q : Nat} (hc : cs[q]? = some 10) (line : List Int) :
    seq (takeLineChar P) ⟨.string (.darray h.length) :: .other (.reader a) :: st, fr,
        lineHeap h a buf q line, w⟩ =
      .ok ⟨.int (-1) :: .string (.darray h.length) :: .other (.reader a) :: st, fr,
        lineHeap h a buf (q + 1) line, w⟩ := by
  have hFalse : P.truthy (.int 0) = false := rfl
  have hTrue : P.truthy (.int (boolToFlag true)) = true := rfl
  simp only [takeLineChar, seq_cons, over_run, ok_bind,
    readChar_next _ _ _ (lineHeap_reader hReader _ _) (lineHeap_holds hReader _ _ hBuf) hc,
    lineHeap_move hReader, dup_run, eof?_int _ _ _ hP, ifElse_run, hFalse, Bool.false_eq_true, if_false,
    lit_run, equal_run, hP.same_int, decide_true, hTrue, if_true, drop_run, seq_nil]

theorem takeLineChar_other {q : Nat} {c : Int} (hc : cs[q]? = some c) (hne : c ≠ 10) (line : List Int) :
    seq (takeLineChar P) ⟨.string (.darray h.length) :: .other (.reader a) :: st, fr,
        lineHeap h a buf q line, w⟩ =
      .ok ⟨.int 0 :: .string (.darray h.length) :: .other (.reader a) :: st, fr,
        lineHeap h a buf (q + 1) (line ++ [c]), w⟩ := by
  have hFalse : P.truthy (.int 0) = false := rfl
  have hNo : P.truthy (.int (boolToFlag false)) = false := rfl
  simp only [takeLineChar, seq_cons, over_run, ok_bind,
    readChar_next _ _ _ (lineHeap_reader hReader _ _) (lineHeap_holds hReader _ _ hBuf) hc,
    lineHeap_move hReader, dup_run, eof?_int _ _ _ hP, ifElse_run, hFalse, Bool.false_eq_true, if_false,
    lit_run, equal_run, hP.same_int, hne, decide_false, hNo, lineHeap_push, seq_nil]

theorem line_loop (later : List Int) : ∀ (done line : List Int) (fuel : Nat), cs = done ++ later →
    later.length < fuel →
    untilLoop P (takeLineChar P) fuel ⟨.string (.darray h.length) :: .other (.reader a) :: st, fr,
        lineHeap h a buf done.length line, w⟩ =
      .ok ⟨.string (.darray h.length) :: .other (.reader a) :: st, fr,
        lineHeap h a buf (cs.length - (behindLine later).length) (line ++ firstLine later), w⟩ := by
  induction later with
  | nil =>
    intro done line fuel hcs hFuel
    obtain ⟨fuel, rfl⟩ := Nat.exists_eq_add_of_le' hFuel
    rw [List.append_nil] at hcs
    subst hcs
    have hLine : line ++ firstLine [] = line := List.append_nil line
    rw [hLine]
    exact untilLoop_end (takeLineChar_end hP st fr w hReader hBuf line) rfl fuel
  | cons c later ih =>
    intro done line fuel hcs hFuel
    obtain ⟨fuel, rfl⟩ : ∃ less, fuel = less + 1 := ⟨fuel - 1, by omega⟩
    rw [List.length_cons] at hFuel
    have hAt : cs[done.length]? = some c := hcs ▸ getElem?_here done later c
    have hDone : (done ++ [c]).length = done.length + 1 := by
      rw [List.length_append, List.length_singleton]
    by_cases hNewline : c = 10
    · subst hNewline
      have hLength : cs.length - (behindLine (10 :: later)).length = done.length + 1 := by
        have hBehind : behindLine (10 :: later) = later := rfl
        rw [hBehind, hcs, List.length_append, List.length_cons]
        omega
      have hLine : line ++ firstLine (10 :: later) = line := List.append_nil line
      rw [hLength, hLine]
      exact untilLoop_end (takeLineChar_newline hP st fr w hReader hBuf hAt line) rfl fuel
    · have hNext : cs = (done ++ [c]) ++ later := by rw [hcs, List.append_assoc, List.singleton_append]
      have hRest := ih (done ++ [c]) (line ++ [c]) fuel hNext (by omega)
      obtain ⟨hLine, hBehind⟩ := firstLine_cons hNewline later
      rw [hDone, List.append_assoc] at hRest
      rw [untilLoop_next (takeLineChar_other hP st fr w hReader hBuf hAt hNewline line) rfl, hRest, hLine,
        hBehind]
      rfl

end Loop

include hP in
theorem readLine_run {done later : List Int} (hcs : cs = done ++ later)
    (hReader : h[a]? = some (.cells [buf, .int done.length])) (hBuf : Holds h buf (cs.map .int))
    {fuel : Nat} (hFuel : later.length < fuel) :
    readLine P fuel ⟨.other (.reader a) :: st, fr, h, w⟩ =
      .ok ⟨.string (.darray h.length) :: st, fr,
        lineHeap h a buf (cs.length - (behindLine later).length) (firstLine later), w⟩ := by
  have hLoop := line_loop hP st fr w hReader hBuf later done [] fuel hcs hFuel
  have hLine : ([] : List Int) ++ firstLine later = firstLine later := List.nil_append _
  rw [hLine] at hLoop
  have hStart : lineHeap h a buf done.length [] = h ++ [.rawvec []] := by
    obtain ⟨hLess, hSelf⟩ := List.getElem?_eq_some_iff.1 hReader
    rw [lineHeap, ← hSelf, List.set_getElem_self hLess]
    rfl
  rw [hStart] at hLoop
  have hRead : readLine P fuel ⟨.other (.reader a) :: st, fr, h, w⟩ =
      seq [newString, untilLoop P (takeLineChar P) fuel, nip] ⟨.other (.reader a) :: st, fr, h, w⟩ := rfl
  rw [hRead, seq_cons, newString_run, ok_bind, seq_cons, hLoop, ok_bind]
  simp only [seq_cons, nip_run, ok_bind, seq_nil]

/-- Successive calls of `read-line` until the reader is drained, and the strings that they return. -/
def drain (P : TextProgram α ω) (fuel : Nat) (reader : Val (Obj α)) :
    Nat → Machine (Obj α) (Returns α ω) →
      Except Fault (List (Val (Obj α)) × Machine (Obj α) (Returns α ω))
  | 0, _ => .error .spent
  | n + 1, m => do
    let m ← seq [push reader, readerDone? P] m
    let (done, m) ← popFlag P m
    if done then .ok ([], m)
    else
      let m ← seq [push reader, readLine P fuel] m
      match m.stack with
      | line :: st =>
        let (lines, m) ← drain P fuel reader n { m with stack := st }
        .ok (line :: lines, m)
      | [] => .error .underflow

theorem fieldVals_cons (base n : Nat) : (fieldVals base (n + 1) : List (Val (Obj α))) =
    .string (.darray base) :: fieldVals (base + 1) n := by
  rw [fieldVals, List.range_succ_eq_map, List.map_cons, List.map_map, fieldVals]
  congr 1
  refine List.map_congr_left fun k _ => ?_
  rw [Function.comp_apply, Nat.succ_eq_add_one, Nat.add_assoc, Nat.add_comm 1 k]

theorem readerDone?_run (hReader : h[a]? = some (.cells [buf, .int p]))
    (hBuf : Holds h buf (cs.map .int)) :
    readerDone? P ⟨.other (.reader a) :: st, fr, h, w⟩ =
      .ok ⟨.int (boolToFlag (P.zero (.int (boolToFlag (decide ((p : Int) < cs.length)))))) :: st, fr, h, w⟩ := by
  simp only [readerDone?, seq_cons, dup_run, ok_bind, readerPos_run _ _ _ hReader, swap_run,
    readerBuf_run _ _ _ hReader, size_run _ _ _ hBuf, List.length_map, lessThan, int2_run, zeroEqual_run,
    seq_nil]

include hP in
theorem drain_run (n : Nat) : ∀ {h : List (Store (Obj α))} {done later : List Int}, cs = done ++ later →
    h[a]? = some (.cells [buf, .int done.length]) → Holds h buf (cs.map .int) → later.length < n →
    ∀ fuel, later.length < fuel →
    ∃ texts : List (List Int), drain P fuel (.other (.reader a)) n ⟨st, fr, h, w⟩ =
        .ok (fieldVals h.length texts.length,
          ⟨st, fr, h.set a (.cells [buf, .int cs.length]) ++ fieldStores texts, w⟩) ∧
      texts.flatten = later.filter (· != 10) := by
  induction n with
  | zero => exact fun _ _ _ hLess => absurd hLess (Nat.not_lt_zero _)
  | succ n ih =>
    intro h done later hcs hReader hBuf hLess fuel hFuel
    have hEq : drain P fuel (.other (.reader a)) (n + 1) ⟨st, fr, h, w⟩ =
        seq [push (.other (.reader a)), readerDone? P] ⟨st, fr, h, w⟩ >>= fun m => popFlag P m >>= fun r =>
          if r.1 then .ok ([], r.2) else seq [push (.other (.reader a)), readLine P fuel] r.2 >>= fun m =>
            match m.stack with
            | line :: st => drain P fuel (.other (.reader a)) n { m with stack := st } >>= fun r =>
              .ok (line :: r.1, r.2)
            | [] => .error .underflow := rfl
    have hFlag := @notDone_flag α ω P done.length cs.length
    rw [hEq]
    simp only [seq_cons, push_run, ok_bind, readerDone?_run _ _ _ hReader hBuf, seq_nil, popFlag_run, hFlag]
    by_cases hEmpty : later = []
    · subst hEmpty
      rw [List.append_nil] at hcs
      subst hcs
      obtain ⟨hIn, hSelf⟩ := List.getElem?_eq_some_iff.1 hReader
      refine ⟨[], ?_, rfl⟩
      rw [if_pos (decide_eq_true (Nat.le_refl _)), ← hSelf, List.set_getElem_self hIn]
      simp only [fieldStores, List.map_nil, List.append_nil]
      rfl
    · have hMore : ¬ decide (cs.length ≤ done.length) = true := by
        have hPos := List.length_pos_iff.mpr hEmpty
        rw [decide_eq_true_eq, hcs, List.length_append]
        omega
      obtain ⟨front, hFront⟩ := behindLine_suffix later
      have hNext : cs = (done ++ front) ++ behindLine later := by rw [List.append_assoc, hFront, hcs]
      have hPos : cs.length - (behindLine later).length = (done ++ front).length := by
        have hLength := congrArg List.length hNext
        rw [List.length_append] at hLength
        omega
      have hShorter := behindLine_length hEmpty
      obtain ⟨texts, hRest, hTexts⟩ := ih (h := lineHeap h a buf (done ++ front).length (firstLine later)) hNext
        (lineHeap_reader hReader _ _) (lineHeap_holds hReader _ _ hBuf) (by omega) fuel (by omega)
      refine ⟨firstLine later :: texts, ?_, ?_⟩
      · rw [if_neg hMore, readLine_run hP _ _ _ hcs hReader hBuf hFuel, hPos, ok_bind]
        have hBase : (lineHeap h a buf (done ++ front).length (firstLine later)).length = h.length + 1 := by
          rw [lineHeap, List.length_append, List.length_set, List.length_singleton]
        have hMoved := @lineHeap_move α h a _ buf hReader (done ++ front).length cs.length (firstLine later)
        rw [hBase, hMoved] at hRest
        simp only [seq_nil, ok_bind, hRest, List.length_cons, fieldVals_cons]
        rw [lineHeap, List.append_assoc]
        rfl
      · rw [List.flatten_cons, hTexts, firstLine_append]

end Lines

/-! The laws. -/

theorem splitOn_length (d : Int) (cs : List Int) : (cs.splitOn d).length = cs.count d + 1 := by
  induction cs with
  | nil => rfl
  | cons c cs ih =>
    rw [List.splitOn_cons_eq_if_modifyHead, List.count_cons]
    split
    · rw [List.length_cons, ih]
    · rw [List.length_modifyHead, ih]

theorem splitOn_clean (d : Int) (cs : List Int) : ∀ field ∈ cs.splitOn d, d ∉ field := by
  induction cs with
  | nil =>
    intro field hField
    rw [List.splitOn_nil, List.mem_singleton] at hField
    rw [hField]
    exact List.not_mem_nil
  | cons c cs ih =>
    rw [List.splitOn_cons_eq_if_modifyHead]
    split
    · intro field hField
      rcases List.mem_cons.mp hField with rfl | hField
      · exact List.not_mem_nil
      · exact ih field hField
    · rename_i hOther
      obtain ⟨first, rest, hSplit⟩ := List.exists_cons_of_ne_nil (List.splitOn_ne_nil d cs)
      rw [hSplit] at ih ⊢
      intro field hField
      rcases List.mem_cons.mp hField with rfl | hField
      · refine List.not_mem_cons_of_ne_of_not_mem ?_ (ih first List.mem_cons_self)
        rintro rfl
        exact hOther (beq_self_eq_true d)
      · exact ih field (List.mem_cons_of_mem _ hField)

/-- What `split`, `join` and `read-line` are to each other. -/
structure SplitJoinLaws (P : TextProgram α ω) : Prop where
  /-- The fields are one more than the delimiters, have none in them, and join to the text. -/
  split_then_join : ∀ (st : List (Val (Obj α))) (fr : List LoopFrame) (h : List (Store (Obj α)))
    (w : Returns α ω) {s : Val (Obj α)} {cs : List Int} (d : Int) (fuel : Nat), Text h s cs → cs.length < fuel →
    ∃ coll h' fields t h'', split P fuel ⟨.int d :: s :: st, fr, h, w⟩ = .ok ⟨coll :: st, fr, h', w⟩ ∧
      Fields h' coll fields ∧ fields.length = cs.count d + 1 ∧ (∀ field ∈ fields, d ∉ field) ∧
      join P ⟨.int d :: coll :: st, fr, h', w⟩ = .ok ⟨t :: st, fr, h'', w⟩ ∧ Text h'' t cs
  /-- Fields without the delimiter come back from their join. -/
  join_then_split : ∀ (st : List (Val (Obj α))) (fr : List LoopFrame) (h : List (Store (Obj α)))
    (w : Returns α ω) {coll : Val (Obj α)} {fields : List (List Int)} (d : Int) (fuel : Nat),
    Fields h coll fields → fields ≠ [] → (∀ field ∈ fields, d ∉ field) →
    ([d].intercalate fields).length < fuel →
    ∃ t h' coll' h'', join P ⟨.int d :: coll :: st, fr, h, w⟩ = .ok ⟨t :: st, fr, h', w⟩ ∧
      split P fuel ⟨.int d :: t :: st, fr, h', w⟩ = .ok ⟨coll' :: st, fr, h'', w⟩ ∧ Fields h'' coll' fields
  /-- The lines of what a reader has left are that text without its newlines. -/
  read_lines : ∀ (st : List (Val (Obj α))) (fr : List LoopFrame) (h : List (Store (Obj α)))
    (w : Returns α ω) {a p : Nat} {buf : Val (Obj α)} {cs : List Int} (n fuel : Nat),
    h[a]? = some (.cells [buf, .int p]) → Holds h buf (cs.map .int) → p ≤ cs.length → cs.length < n →
    cs.length < fuel →
    ∃ lines h' texts, drain P fuel (.other (.reader a)) n ⟨st, fr, h, w⟩ = .ok (lines, ⟨st, fr, h', w⟩) ∧
      List.Forall₂ (Text h') lines texts ∧ texts.flatten = (cs.drop p).filter (· != 10)

/-- A program without classes of its own. -/
def plainProgram : TextProgram Unit Unit where
  call1 _ _ := pure ()
  call1r _ x := pure x
  call2r _ _ x := pure x
  equals a b := pure (boolToFlag (decide (a = b)))
  cmp _ _ := pure 0
  isZero _ := false
  filler := .int 0
  f := .other ()
  same a b := decide (a = b)
  same_equiv := ⟨fun _ => decide_eq_true rfl, fun h => decide_eq_true (of_decide_eq_true h).symm,
    fun h h' => decide_eq_true ((of_decide_eq_true h).trans (of_decide_eq_true h'))⟩
  order xs := xs
  order_perm xs := List.Perm.refl xs

theorem plain_plainProgram : Plain plainProgram := by
  refine ⟨fun m n => ?_, fun n => rfl, fun v w => rfl⟩
  exact decide_eq_decide.mpr ⟨Val.int.inj, congrArg Val.int⟩

/-- `split` and `join` are inverse, and reading by lines drops the newlines alone. -/
theorem splitJoinLaws {P : TextProgram α ω} (hP : Plain P) : SplitJoinLaws P := by
  refine ⟨?_, ?_, ?_⟩
  · intro st fr h w s cs d fuel hs hFuel
    obtain ⟨buf, hSplit⟩ := split_run hP st fr w hs d hFuel
    have hFields := @fields_split α h buf cs.length (cs.splitOn d)
    refine ⟨_, _, _, _, _, hSplit, hFields, splitOn_length d cs, splitOn_clean d cs,
      join_run st fr w hFields d, ?_⟩
    rw [List.intercalate_splitOn]
    exact text_here _ [] cs
  · intro st fr h w coll fields d fuel hFields hne hClean hFuel
    have hText := text_here h [] ([d].intercalate fields)
    obtain ⟨buf, hSplit⟩ := split_run hP st fr w hText d hFuel
    rw [List.splitOn_intercalate d hClean hne] at hSplit
    exact ⟨_, _, _, _, join_run st fr w hFields d, hSplit, fields_split _ _⟩
  · intro st fr h w a p buf cs n fuel hReader hBuf hp hn hFuel
    have hLength : (cs.take p).length = p := List.length_take_of_le hp
    have hLater : (cs.drop p).length ≤ cs.length := (List.drop_suffix p cs).length_le
    have hAt : h[a]? = some (.cells [buf, .int (cs.take p).length]) := by rwa [hLength]
    obtain ⟨texts, hDrain, hTexts⟩ := drain_run hP st fr w n (List.take_append_drop p cs).symm hAt hBuf
      (by omega) fuel (by omega)
    refine ⟨_, _, texts, hDrain, ?_, hTexts⟩
    have hHere := texts_here (h.set a (.cells [buf, .int cs.length])) texts
    rwa [List.length_set] at hHere

theorem splitJoinLaws_plainProgram : SplitJoinLaws plainProgram := splitJoinLaws plain_plainProgram

end FactorForth.Correctness
