import FactorForth.Correctness.CollectionSort
import FactorForth.Protocols.Streams

/-! How the words over strings and readers run. -/

namespace FactorForth.Correctness
open FactorForth.Library FactorForth.Protocols
open FactorForth.Semantics (LoopFrame)
variable {α ω : Type}

/-- The string has these characters. -/
def Text (h : List (Store (Obj α))) (s : Val (Obj α)) (cs : List Int) : Prop :=
  ∃ chars, s = .string chars ∧ Holds h chars (cs.map .int)

/-- Factor's `=` on numbers and the end marker, and the library's default method of `equals?`, which no
class of the program replaces for the end marker. -/
structure Plain (P : TextProgram α ω) : Prop where
  same_int : ∀ m n, P.same (.int m) (.int n) = decide (m = n)
  int_not_eof : ∀ n, P.same (.int n) (.other .eofMarker) = false
  equals_eof : ∀ v w, (P.equals v (.other .eofMarker)).run w =
    (boolToFlag (P.same v (.other .eofMarker)), w)

section Texts
variable {h : List (Store (Obj α))} {s : Val (Obj α)} {cs : List Int}

theorem Text.holds (hs : Text h s cs) : Holds h s (cs.map .int) := by
  obtain ⟨chars, rfl, hChars⟩ := hs
  exact hChars

theorem Text.append (hs : Text h s cs) (news : List (Store (Obj α))) : Text (h ++ news) s cs := by
  obtain ⟨chars, rfl, hChars⟩ := hs
  exact ⟨chars, rfl, hChars.append news⟩

theorem text_here (front rest : List (Store (Obj α))) (cs : List Int) :
    Text (front ++ .rawvec (cs.map .int) :: rest) (.string (.darray front.length)) cs :=
  ⟨_, rfl, getElem?_here front rest _⟩

end Texts

theorem seq_append {β σ : Type} (xs ys : List (Word β σ)) (m : Machine β σ) :
    seq (xs ++ ys) m = seq xs m >>= seq ys := by
  induction xs generalizing m with
  | nil => rfl
  | cons x xs ih =>
    rw [List.cons_append, seq_cons, seq_cons]
    cases x m with
    | error e => rfl
    | ok m' => exact ih m'

/-- A store that a collection is not over may change. -/
theorem holds_set {β : Type} {h : List (Store β)} {c : Val β} {xs : List (Val β)} (hc : Holds h c xs)
    {a : Nat} (ha : storeOf c ≠ a) (s : Store β) : Holds (h.set a s) c xs := by
  have hKept : ∀ {a' : Nat} {t : Store β}, a' ≠ a → h[a']? = some t → (h.set a s)[a']? = some t := by
    intro a' t hNe ht
    rwa [List.getElem?_set_ne (Ne.symm hNe)]
  induction c with
  | grid width height a' => exact ⟨hKept ha hc.1, hc.2⟩
  | darray a' => exact hKept ha hc
  | string chars ih => exact ih hc ha
  | _ => exact hc.elim

section Runs
variable {P : TextProgram α ω} {h : List (Store (Obj α))} (st : List (Val (Obj α))) (fr : List LoopFrame)
  (w : Returns α ω)

@[simp] theorem equal_run (a b : Val (Obj α)) :
    equal P ⟨b :: a :: st, fr, h, w⟩ = .ok ⟨.int (boolToFlag (P.same a b)) :: st, fr, h, w⟩ := rfl

@[simp] theorem rot_run (x y z : Val (Obj α)) :
    rot (⟨z :: y :: x :: st, fr, h, w⟩ : Machine (Obj α) (Returns α ω)) =
      .ok ⟨x :: z :: y :: st, fr, h, w⟩ := rfl

@[simp] theorem toR_run (x : Val (Obj α)) (rs : List (Val (Obj α))) (rest : ω) :
    toR ⟨x :: st, fr, h, ⟨rs, rest⟩⟩ = .ok ⟨st, fr, h, ⟨x :: rs, rest⟩⟩ := rfl

@[simp] theorem fromR_run (x : Val (Obj α)) (rs : List (Val (Obj α))) (rest : ω) :
    fromR ⟨st, fr, h, ⟨x :: rs, rest⟩⟩ = .ok ⟨x :: st, fr, h, ⟨rs, rest⟩⟩ := rfl

@[simp] theorem fetchR_run (x : Val (Obj α)) (rs : List (Val (Obj α))) (rest : ω) :
    fetchR ⟨st, fr, h, ⟨x :: rs, rest⟩⟩ = .ok ⟨x :: st, fr, h, ⟨x :: rs, rest⟩⟩ := rfl

theorem eof?_int (hP : Plain P) (n : Int) :
    eof? P ⟨.int n :: st, fr, h, w⟩ = .ok ⟨.int 0 :: st, fr, h, w⟩ := by
  simp only [eof?, seq_cons, push_run, ok_bind, equals?_run, hP.equals_eof, hP.int_not_eof, seq_nil]
  rfl

theorem eof?_eof (hP : Plain P) :
    eof? P ⟨.other .eofMarker :: st, fr, h, w⟩ = .ok ⟨.int (-1) :: st, fr, h, w⟩ := by
  have hSame : P.same (.other .eofMarker) (.other .eofMarker) = true := P.same_equiv.refl _
  simp only [eof?, seq_cons, push_run, ok_bind, equals?_run, hP.equals_eof, hSame, seq_nil]
  rfl

/-! Strings. -/

@[simp] theorem newString_run :
    newString (⟨st, fr, h, w⟩ : Machine (Obj α) (Returns α ω)) =
      .ok ⟨.string (.darray h.length) :: st, fr, h ++ [.rawvec []], w⟩ := rfl

theorem stringPush_here (rest : List (Store (Obj α))) (ys : List (Val (Obj α))) (y : Val (Obj α)) :
    stringPush (⟨.string (.darray h.length) :: y :: st, fr, h ++ .rawvec ys :: rest, w⟩ :
        Machine (Obj α) (Returns α ω)) =
      .ok ⟨st, fr, h ++ .rawvec (ys ++ [y]) :: rest, w⟩ := by
  show (dPush ⟨.darray h.length :: y :: st, fr, h ++ .rawvec ys :: rest, w⟩ >>= seq []) = _
  rw [dPush_here, bind_seq_nil]

/-- The source may be any collection that the new text is not the store of. -/
theorem appendInto_run {src : Val (Obj α)} {xs : List (Val (Obj α))} (hSrc : Holds h src xs)
    (rest : List (Store (Obj α))) (ys : List (Val (Obj α))) :
    appendInto (⟨.string (.darray h.length) :: src :: st, fr, h ++ .rawvec ys :: rest, w⟩ :
        Machine (Obj α) (Returns α ω)) =
      .ok ⟨st, fr, h ++ .rawvec (ys ++ xs) :: rest, w⟩ := by
  simp only [appendInto, seq_cons, over_run, ok_bind, size_run _ _ _ (hSrc.append _), lit_run]
  refine walk_then xs (fun pre => ⟨.string (.darray h.length) :: src :: st, fr,
    h ++ .rawvec (ys ++ pre) :: rest, w⟩) 0 xs.length ?_ (Nat.zero_add _) (fun pre x hp => ?_) ?_
  · rw [List.append_nil]
    rfl
  · simp only [Machine.inLoop, Nat.zero_add, seq_cons, seq_nil, over_run, ok_bind, index_run, swap_run,
      elementAt_item _ _ _ (hSrc.append _) hp, stringPush_here, List.append_assoc]
  · simp only [seq_cons, seq_nil, twoDrop_run, ok_bind]

/-! Readers. -/

theorem notDone_flag (q n : Nat) : P.truthy (.int (boolToFlag (P.zero (.int (boolToFlag
    (decide ((q : Int) < n))))))) = decide (n ≤ q) := by
  rw [zero_flag, truthy_flag, ← decide_not]
  exact decide_eq_decide.mpr (by omega)

section Readers
variable {a p : Nat} {buf : Val (Obj α)} {cs : List Int} (ha : h[a]? = some (.cells [buf, .int p]))
include ha

theorem readerBuf_run :
    readerBuf (⟨.other (.reader a) :: st, fr, h, w⟩ : Machine (Obj α) (Returns α ω)) =
      .ok ⟨buf :: st, fr, h, w⟩ := by
  show cellsAt ⟨.int 0 :: .addr a :: st, fr, h, w⟩ >>= seq [] = _
  rw [cellsAt, bind1_run, withStore_run _ _ _ _ (cells?_of ha)]
  rfl

theorem readerPos_run :
    readerPos (⟨.other (.reader a) :: st, fr, h, w⟩ : Machine (Obj α) (Returns α ω)) =
      .ok ⟨.int p :: st, fr, h, w⟩ := by
  show cellsAt ⟨.int 1 :: .addr a :: st, fr, h, w⟩ >>= seq [] = _
  rw [cellsAt, bind1_run, withStore_run _ _ _ _ (cells?_of ha)]
  rfl

theorem setReaderPos_run (q : Val (Obj α)) :
    setReaderPos (⟨.other (.reader a) :: q :: st, fr, h, w⟩ : Machine (Obj α) (Returns α ω)) =
      .ok ⟨st, fr, h.set a (.cells [buf, q]), w⟩ := by
  show cellsSet ⟨.int 1 :: .addr a :: q :: st, fr, h, w⟩ >>= seq [] = _
  rw [cellsSet, bind1_run]
  simp only [withStore_run _ _ _ _ (cells?_of ha), bind1_run]
  rfl

theorem readChar_end (hBuf : Holds h buf (cs.map .int)) (hp : p = cs.length) :
    readChar P ⟨.other (.reader a) :: st, fr, h, w⟩ = .ok ⟨.other .eofMarker :: st, fr, h, w⟩ := by
  simp only [readChar, seq_cons, dup_run, ok_bind, readerPos_run _ _ _ ha, over_run,
    readerBuf_run _ _ _ ha, size_run _ _ _ hBuf, lessThan, int2_run, zeroEqual_run, ifElse_run,
    notDone_flag, List.length_map, hp, le_refl, decide_true, if_true, drop_run, push_run, seq_nil]

theorem readChar_next (hBuf : Holds h buf (cs.map .int)) {c : Int} (hc : cs[p]? = some c) :
    readChar P ⟨.other (.reader a) :: st, fr, h, w⟩ =
      .ok ⟨.int c :: st, fr, h.set a (.cells [buf, .int (p + 1 : Nat)]), w⟩ := by
  obtain ⟨hLess, rfl⟩ := List.getElem?_eq_some_iff.mp hc
  have hMore : ¬ cs.length ≤ p := Nat.not_le.mpr hLess
  have hAt : p < (cs.map (Val.int : Int → Val (Obj α))).length := by rwa [List.length_map]
  simp only [readChar, seq_cons, dup_run, ok_bind, readerPos_run _ _ _ ha, over_run,
    readerBuf_run _ _ _ ha, size_run _ _ _ hBuf, lessThan, int2_run, zeroEqual_run, ifElse_run,
    notDone_flag, List.length_map, hMore, decide_false, Bool.false_eq_true, if_false,
    elementAt_run _ _ _ hBuf hAt, swap_run, onePlus, int1_run, setReaderPos_run _ _ _ ha, drop_run, seq_nil,
    List.getElem_map]
  rfl

end Readers

end Runs
end FactorForth.Correctness
