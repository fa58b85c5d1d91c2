import FactorForth.Correctness.SplitJoin
import FactorForth.Correctness.TextWordRuns
import FactorForth.Editor.Utf8
import Mathlib.Algebra.BigOperators.Group.List.Basic

/-! What the text words compute, on every text and from every state. -/

namespace FactorForth.Correctness
open FactorForth.Library FactorForth.Protocols
open FactorForth.Semantics (LoopFrame)
variable {α ω : Type}

/-! Templates. -/

inductive TemplatePart where
  | char (c : Int)
  /-- `{}`, the place of a value. -/
  | marker

/-- A template read from the left; what a marker takes is not looked at again. -/
def template : List Int → List TemplatePart
  | a :: b :: cs =>
    if a = 123 ∧ b = 125 then .marker :: template cs else .char a :: template (b :: cs)
  | [a] => [.char a]
  | [] => []

def markers : List TemplatePart → Nat
  | .char _ :: ps => markers ps
  | .marker :: ps => markers ps + 1
  | [] => 0

/-- The pieces with the k-th text at the k-th marker. -/
def filled : List TemplatePart → List (List Int) → List Int
  | .char c :: ps, texts => c :: filled ps texts
  | .marker :: ps, text :: texts => text ++ filled ps texts
  | .marker :: ps, [] => filled ps []
  | [], _ => []

/-- The piece that a text starts with and how long it is. -/
theorem template_split (c : Int) (cs : List Int) :
    (∃ rest, c :: cs = 123 :: 125 :: rest ∧ template (c :: cs) = .marker :: template rest) ∨
      (¬ (c = 123 ∧ cs[0]? = some 125) ∧ template (c :: cs) = .char c :: template cs) := by
  cases cs with
  | nil =>
    refine .inr ⟨fun h => ?_, rfl⟩
    cases h.2
  | cons b cs =>
    by_cases hMarker : c = 123 ∧ b = 125
    · refine .inl ⟨cs, ?_, ?_⟩
      · rw [hMarker.1, hMarker.2]
      · rw [template, if_pos hMarker]
    · refine .inr ⟨fun h => hMarker ⟨h.1, Option.some.inj h.2⟩, ?_⟩
      rw [template, if_neg hMarker]

section Runs
variable {P : TextProgram α ω} {h : List (Store (Obj α))} (st : List (Val (Obj α))) (fr : List LoopFrame)
  (w : Returns α ω)

/-! Padding and repeating. -/

theorem clamp_eq (n : Int) : max n 0 = (n.toNat : Nat) := by
  omega

section Padding
variable {s : Val (Obj α)} {cs : List Int} (hs : Holds h s (cs.map .int))
include hs

theorem padLeft_run (n ch : Int) :
    padLeft ⟨.int ch :: .int n :: s :: st, fr, h, w⟩ = .ok ⟨.string (.darray h.length) :: st, fr,
      h ++ [.rawvec ((List.replicate (n - cs.length).toNat ch ++ cs).map .int)], w⟩ := by
  have hFill := fill_run (h := h) st fr w [] [] (.int ch) (n - cs.length).toNat
  have hCopy := copyChars_run (h := h) st fr w (List.replicate (n - cs.length).toNat (.int ch)) []
    fun ys => hs.append _
  simp only [List.nil_append] at hFill
  simp only [padLeft, bind3_run, seq_append, seq_cons, newString_run, ok_bind, bind1_run, push_run,
    size_run _ _ _ (hs.append _), List.length_map, minus, int2_run, lit_run, max_, clamp_eq, hFill, seq_nil,
    hCopy, List.map_append, List.map_replicate]

theorem padRight_run (n ch : Int) :
    padRight ⟨.int ch :: .int n :: s :: st, fr, h, w⟩ = .ok ⟨.string (.darray h.length) :: st, fr,
      h ++ [.rawvec ((cs ++ List.replicate (n - cs.length).toNat ch).map .int)], w⟩ := by
  have hCopy := copyChars_run (h := h) st fr w [] [] fun ys => hs.append _
  have hFill := fill_run (h := h) st fr w (cs.map .int) [] (.int ch) (n - cs.length).toNat
  rw [List.nil_append] at hCopy
  simp only [padRight, bind3_run, seq_append, seq_cons, newString_run, ok_bind, bind1_run, push_run,
    hCopy, size_run _ _ _ (hs.append _), List.length_map, minus, int2_run, lit_run, max_, clamp_eq, hFill,
    seq_nil, List.map_append, List.map_replicate]

theorem repeatString_run (n : Int) :
    repeatString ⟨.int n :: s :: st, fr, h, w⟩ = .ok ⟨.string (.darray h.length) :: st, fr,
      h ++ [.rawvec ((List.replicate n.toNat cs).flatten.map .int)], w⟩ := by
  simp only [repeatString, bind2_run, seq_cons, newString_run, ok_bind, bind1_run, push_run, lit_run, max_,
    int2_run, clamp_eq]
  have hRun := @qdoLoop_run (Obj α) (Returns α ω) (copyChars s (.string (.darray h.length)))
    (fun i => ⟨st, fr, h ++ [.rawvec ((List.replicate i cs).flatten.map .int)], w⟩) 0 n.toNat
    (Nat.zero_le _) (fun i _ _ => ?_)
  · simp only [Machine.withBounds, List.replicate_zero, List.flatten_nil, List.map_nil,
      Int.natCast_zero] at hRun
    simp only [hRun, ok_bind, seq_cons, push_run, seq_nil]
  · simp only [Machine.inLoop]
    rw [copyChars_run _ _ _ _ [] fun ys => hs.append _, List.replicate_succ', List.flatten_append,
      List.flatten_singleton, List.map_append]

end Padding

theorem repeatChar_run (ch n : Int) :
    repeatChar (⟨.int n :: .int ch :: st, fr, h, w⟩ : Machine (Obj α) (Returns α ω)) =
      .ok ⟨.string (.darray h.length) :: st, fr, h ++ [.rawvec ((List.replicate n.toNat ch).map .int)], w⟩ := by
  have hFill := fill_run (h := h) st fr w [] [] (.int ch) n.toNat
  simp only [List.nil_append] at hFill
  simp only [repeatChar, bind2_run, seq_cons, newString_run, ok_bind, bind1_run, push_run, lit_run, max_,
    int2_run, clamp_eq, hFill, seq_nil, List.map_replicate]

/-! Formatting. -/

section Formatting
variable {s : Val (Obj α)} {cs : List Int}

theorem markerAt?_next (hP : Plain P) {c : Int} {done later : List Int} (hs : Holds h s (cs.map .int))
    (hcs : cs = done ++ c :: later) :
    markerAt? P ⟨.int done.length :: s :: st, fr, h, w⟩ =
      .ok ⟨.int (boolToFlag (decide (c = 123 ∧ later[0]? = some 125))) :: st, fr, h, w⟩ := by
  have hAt : cs[done.length]? = some c := by
    rw [hcs, List.getElem?_append_right le_rfl, Nat.sub_self]
    rfl
  simp only [markerAt?, bind2_run, seq_cons, push_run, ok_bind, lit_run, plus, int2_run,
    size_run _ _ _ hs, List.length_map, lessThan, ifElse_run, truthy_flag]
  cases later with
  | nil =>
    have hNo : ¬ decide ((done.length : Int) + 1 < cs.length) = true := by
      rw [hcs, List.length_append, List.length_singleton, decide_eq_true_eq]
      omega
    rw [if_neg hNo, decide_eq_false fun hBoth => by cases hBoth.2]
    rfl
  | cons d later =>
    have hYes : decide ((done.length : Int) + 1 < cs.length) = true := by
      rw [hcs, List.length_append, List.length_cons, List.length_cons, decide_eq_true_eq]
      omega
    have hNext : cs[done.length + 1]? = some d := by
      rw [hcs, List.getElem?_append_right (Nat.le_add_right _ 1), Nat.add_sub_cancel_left]
      rfl
    have hIndex : (done.length : Int) + 1 = (done.length + 1 : Nat) := rfl
    rw [if_pos hYes]
    simp only [seq_cons, push_run, ok_bind, charAt_run _ _ _ hs hAt, lit_run, equal_run, hP.same_int,
      int2_run, hIndex, charAt_run _ _ _ hs hNext, bitand, land_flags, seq_nil, ← Bool.decide_and,
      List.getElem?_cons_zero, Option.some_inj]

theorem toString_run (render : Val (Obj α) → StateM (Returns α ω) (List Int)) (v : Val (Obj α)) :
    toString render ⟨v :: st, fr, h, w⟩ = .ok ⟨.string (.darray h.length) :: st, fr,
      h ++ [.rawvec (((render v).run w).1.map .int)], ((render v).run w).2⟩ := rfl

/-- The characters of a text kept behind the new one. -/
theorem pushChars_last (res text : List Int) (news : List (Store (Obj α))) :
    pushChars (⟨.string (.darray h.length) ::
        .string (.darray (h ++ .rawvec (res.map .int) :: news).length) :: st, fr,
        (h ++ .rawvec (res.map .int) :: news) ++ [.rawvec (text.map .int)], w⟩ :
        Machine (Obj α) (Returns α ω)) =
      .ok ⟨st, fr, h ++ .rawvec ((res ++ text).map .int) :: (news ++ [.rawvec (text.map .int)]), w⟩ := by
  have hSrc : ∀ ys, Holds (h ++ .rawvec ys :: (news ++ [.rawvec (text.map .int)]))
      (.string (.darray (h ++ .rawvec (res.map .int) :: news).length)) (text.map .int) := by
    intro ys
    have hLength : (h ++ .rawvec (res.map .int) :: news).length = (h ++ .rawvec ys :: news).length := by
      simp only [List.length_append, List.length_cons]
    have hHere := getElem?_here (h ++ .rawvec ys :: news) [] (.rawvec (text.map .int))
    rw [List.append_assoc] at hHere
    rw [hLength]
    exact hHere
  have hCopy := copyChars_run st fr w (res.map .int) _ hSrc
  rw [List.append_assoc, List.map_append, ← hCopy]
  rfl

theorem pushed_char (res : List Int) (news : List (Store (Obj α))) (c : Int) :
    stringPush (⟨.string (.darray h.length) :: .int c :: st, fr, h ++ .rawvec (res.map .int) :: news, w⟩ :
        Machine (Obj α) (Returns α ω)) =
      .ok ⟨st, fr, h ++ .rawvec ((res ++ [c]).map .int) :: news, w⟩ := by
  rw [stringPush_here, List.map_append]
  rfl

/-- The body of `format`'s loop. -/
abbrev formatStep (P : TextProgram α ω) (render : Val (Obj α) → StateM (Returns α ω) (List Int))
    (s d result : Val (Obj α)) : List (TextWord α ω) :=
  [push s, over_, markerAt? P, ifElse P
    [swap,
      dup, push d, elementAt, toString render, push result, pushChars,
      lit 1, plus,
      swap, lit 2, plus]
    [dup, push s, elementAt, push result, stringPush,
      lit 1, plus]]

section Loop
variable (render : Val (Obj α) → StateM (Returns α ω) (List Int)) (hP : Plain P) {d : Val (Obj α)}
  {vals : List (Val (Obj α))} (hs : Holds h s (cs.map .int)) (hd : Holds h d vals)
include hP hs

theorem formatStep_char {c : Int} {done later : List Int} (hcs : cs = done ++ c :: later)
    (hNot : ¬ (c = 123 ∧ later[0]? = some 125)) (vi : Int) (res : List Int)
    (news : List (Store (Obj α))) :
    seq (formatStep P render s d (.string (.darray h.length)))
        ⟨.int done.length :: .int vi :: st, fr, h ++ .rawvec (res.map .int) :: news, w⟩ =
      .ok ⟨.int (done.length + 1 : Nat) :: .int vi :: st, fr,
        h ++ .rawvec ((res ++ [c]).map .int) :: news, w⟩ := by
  have hAt : cs[done.length]? = some c := by
    rw [hcs, List.getElem?_append_right le_rfl, Nat.sub_self]
    rfl
  simp only [formatStep, seq_cons, push_run, ok_bind, over_run,
    markerAt?_next _ _ _ hP (hs.append _) hcs, ifElse_run, truthy_flag, decide_eq_true_eq, if_neg hNot,
    dup_run, charAt_run _ _ _ (hs.append _) hAt, pushed_char, lit_run, plus, int2_run, seq_nil]
  rfl

include hd in
theorem formatStep_marker {done later : List Int} (hcs : cs = done ++ 123 :: 125 :: later)
    {v : Val (Obj α)} {before after : List (Val (Obj α))} (hVals : vals = before ++ v :: after)
    (res : List Int) (news : List (Store (Obj α))) :
    seq (formatStep P render s d (.string (.darray h.length)))
        ⟨.int done.length :: .int before.length :: st, fr, h ++ .rawvec (res.map .int) :: news, w⟩ =
      .ok ⟨.int (done.length + 2 : Nat) :: .int (before.length + 1 : Nat) :: st, fr,
        h ++ .rawvec ((res ++ ((render v).run w).1).map .int) ::
          (news ++ [.rawvec (((render v).run w).1.map .int)]), ((render v).run w).2⟩ := by
  have hLess : before.length < vals.length := by
    rw [hVals, List.length_append, List.length_cons]
    omega
  have hItem : vals[before.length] = v := by
    simp only [hVals, List.getElem_append_right (Nat.le_refl _), Nat.sub_self, List.getElem_cons_zero]
  simp only [formatStep, seq_cons, push_run, ok_bind, over_run,
    markerAt?_next _ _ _ hP (hs.append _) hcs, ifElse_run, truthy_flag, decide_eq_true_eq, swap_run,
    dup_run, elementAt_run _ _ _ (hd.append _) hLess, hItem, toString_run, pushChars_last, lit_run,
    plus, int2_run, seq_nil]
  rfl

include hd in
theorem format_loop (n : Nat) : ∀ (later done : List Int) (res : List Int) (news : List (Store (Obj α)))
    (before after : List (Val (Obj α))) (w : Returns α ω) (fuel : Nat), later.length ≤ n →
    cs = done ++ later → vals = before ++ after → markers (template later) ≤ after.length →
    later.length < fuel →
    ∃ vi news', whileLoop P [dup, push s, size, lessThan]
        (formatStep P render s d (.string (.darray h.length))) fuel
        ⟨.int done.length :: .int before.length :: st, fr, h ++ .rawvec (res.map .int) :: news, w⟩ =
      .ok ⟨.int cs.length :: .int vi :: st, fr, h ++ .rawvec ((res ++ filled (template later)
          (results render (after.take (markers (template later))) w)).map .int) :: news',
        visited render (after.take (markers (template later))) w⟩ := by
  have hPred : ∀ (k : Nat) (vi : Int) (ys : List (Val (Obj α))) (news : List (Store (Obj α)))
      (w : Returns α ω), seq [dup, push s, size, lessThan]
        (⟨.int k :: .int vi :: st, fr, h ++ .rawvec ys :: news, w⟩ : Machine (Obj α) (Returns α ω)) =
      .ok ⟨.int (boolToFlag (decide ((k : Int) < cs.length))) :: .int k :: .int vi :: st, fr,
        h ++ .rawvec ys :: news, w⟩ := by
    intro k vi ys news w
    simp only [seq_cons, dup_run, ok_bind, push_run, size_run _ _ _ (hs.append _), List.length_map, lessThan,
      int2_run, seq_nil]
  induction n with
  | zero =>
    intro later done res news before after w fuel hn hcs _ _ hFuel
    obtain rfl : later = [] := List.length_eq_zero_iff.mp (Nat.le_zero.mp hn)
    obtain ⟨fuel, rfl⟩ : ∃ less, fuel = less + 1 := ⟨fuel - 1, by omega⟩
    rw [List.append_nil] at hcs
    subst hcs
    refine ⟨before.length, news, ?_⟩
    rw [whileLoop_end (hPred _ _ _ _ _) ((truthy_flag P _).trans (decide_eq_false (Int.lt_irrefl _)))]
    simp only [template, markers, List.take_zero, results_nil, visited_nil, filled, List.append_nil]
  | succ n ih =>
    intro later done res news before after w fuel hn hcs hVals hMarkers hFuel
    cases later with
    | nil => exact ih [] done res news before after w fuel (Nat.zero_le _) hcs hVals hMarkers hFuel
    | cons c later =>
      rw [List.length_cons] at hn hFuel
      obtain ⟨fuel, rfl⟩ : ∃ less, fuel = less + 1 := ⟨fuel - 1, by omega⟩
      have hMore : P.truthy (.int (boolToFlag (decide ((done.length : Int) < cs.length)))) = true := by
        rw [truthy_flag, hcs, List.length_append, List.length_cons]
        exact decide_eq_true (by omega)
      rcases template_split c later with ⟨rest, hText, hPieces⟩ | ⟨hNot, hPieces⟩
      · rw [hPieces, markers] at hMarkers
        obtain ⟨v, after, rfl⟩ : ∃ v rest, after = v :: rest :=
          List.exists_cons_of_length_pos (by omega)
        rw [hText] at hcs
        have hRest : later.length = rest.length + 1 := by
          have hLength := congrArg List.length hText
          simp only [List.length_cons] at hLength
          omega
        have hDone : (done ++ [123, 125]).length = done.length + 2 := by
          rw [List.length_append]
          rfl
        have hBefore : (before ++ [v]).length = before.length + 1 := by
          rw [List.length_append, List.length_singleton]
        obtain ⟨vi, news', hRun⟩ := ih rest (done ++ [123, 125]) (res ++ ((render v).run w).1)
          (news ++ [.rawvec (((render v).run w).1.map .int)]) (before ++ [v]) after ((render v).run w).2 fuel
          (by omega) (by rw [List.append_assoc, hcs]; rfl) (by rw [List.append_assoc, hVals]; rfl)
          (by rw [List.length_cons] at hMarkers; omega) (by omega)
        rw [hDone, hBefore] at hRun
        refine ⟨vi, news', ?_⟩
        rw [whileLoop_next (hPred _ _ _ _ _) hMore
          (formatStep_marker st fr w render hP hs hd hcs hVals res news), hRun, hPieces, markers,
          List.take_succ_cons, results_cons, visited_cons, filled, List.append_assoc]
      · rw [hPieces, markers] at hMarkers
        have hDone : (done ++ [c]).length = done.length + 1 := by
          rw [List.length_append, List.length_singleton]
        obtain ⟨vi, news', hRun⟩ := ih later (done ++ [c]) (res ++ [c]) news before after w fuel (by omega)
          (by rw [List.append_assoc, hcs]; rfl) hVals hMarkers (by omega)
        rw [hDone] at hRun
        refine ⟨vi, news', ?_⟩
        rw [whileLoop_next (hPred _ _ _ _ _) hMore
          (formatStep_char st fr w render hP hs hcs hNot _ res news), hRun, hPieces, markers, filled,
          List.append_assoc]
        rfl

include hd in
theorem format_run (hMarkers : markers (template cs) ≤ vals.length) {fuel : Nat} (hFuel : cs.length < fuel) :
    ∃ news, format P fuel render ⟨d :: s :: st, fr, h, w⟩ = .ok ⟨.string (.darray h.length) :: st, fr,
      h ++ .rawvec ((filled (template cs) (results render (vals.take (markers (template cs))) w)).map .int) :: news,
      visited render (vals.take (markers (template cs))) w⟩ := by
  obtain ⟨vi, news, hLoop⟩ := format_loop st fr render hP hs hd cs.length cs [] [] [] [] vals w fuel le_rfl
    rfl rfl hMarkers hFuel
  refine ⟨news, ?_⟩
  simp only [List.length_nil, Int.natCast_zero, List.map_nil, List.nil_append] at hLoop
  simp only [format, bind2_run, seq_cons, newString_run, ok_bind, bind1_run, lit_run, hLoop, twoDrop_run,
    push_run, seq_nil]

end Loop
end Formatting

/-! Literals. -/

section Literals
variable (stray : List UInt8 → Nat → UInt8)

/-- The first bytes that `>string` reads. -/
def bytesRead (bytes : List UInt8) (n : Nat) : List Int :=
  (List.range n).map fun i => ((bytes[i]?.getD (stray bytes i)).toNat : Int)

/-- What `>string` reads, one byte at least. -/
def readBytes (bytes : List UInt8) : List Int := bytesRead stray bytes (max 1 bytes.length)

theorem bytesRead_succ (bytes : List UInt8) (n : Nat) :
    bytesRead stray bytes (n + 1) =
      bytesRead stray bytes n ++ [((bytes[n]?.getD (stray bytes n)).toNat : Int)] := by
  rw [bytesRead, List.range_succ, List.map_append]
  rfl

theorem readBytes_ne {bytes : List UInt8} (hne : bytes ≠ []) :
    readBytes stray bytes = bytes.map fun b => (b.toNat : Int) := by
  have hMax : max 1 bytes.length = bytes.length := max_eq_right (List.length_pos_iff.mpr hne)
  refine List.ext_getElem ?_ fun i hi _ => ?_
  · rw [readBytes, bytesRead, List.length_map, List.length_range, hMax, List.length_map]
  · have hLess : i < bytes.length := by
      rwa [readBytes, bytesRead, List.length_map, List.length_range, hMax] at hi
    simp only [readBytes, bytesRead, List.getElem_map, List.getElem_range, List.getElem?_eq_getElem hLess,
      Option.getD_some]

/-- The body of the loop of `>string`. -/
abbrev toTextPass : List (TextWord α ω) := [over_, cFetch stray, over_, dPush, swap, charPlus, swap]

theorem toText_pass (bytes : List UInt8) (i : Nat) (ys : List (Val (Obj α))) :
    seq (toTextPass stray)
        (⟨.darray h.length :: .other (.nfAddr bytes i) :: st, fr, h ++ [.rawvec ys], w⟩ :
          Machine (Obj α) (Returns α ω)) =
      .ok ⟨.darray h.length :: .other (.nfAddr bytes (i + 1)) :: st, fr,
        h ++ [.rawvec (ys ++ [.int (bytes[i]?.getD (stray bytes i)).toNat])], w⟩ := by
  have hFetch : ∀ st : List (Val (Obj α)),
      cFetch stray (⟨.other (.nfAddr bytes i) :: st, fr, h ++ [.rawvec ys], w⟩ :
        Machine (Obj α) (Returns α ω)) =
      .ok ⟨.int (bytes[i]?.getD (stray bytes i)).toNat :: st, fr, h ++ [.rawvec ys], w⟩ := fun _ => rfl
  have hPlus : ∀ (st : List (Val (Obj α))) (ys : List (Val (Obj α))),
      charPlus (⟨.other (.nfAddr bytes i) :: st, fr, h ++ [.rawvec ys], w⟩ :
        Machine (Obj α) (Returns α ω)) =
      .ok ⟨.other (.nfAddr bytes (i + 1)) :: st, fr, h ++ [.rawvec ys], w⟩ := fun _ _ => rfl
  simp only [toTextPass, seq_cons, over_run, ok_bind, hFetch, dPush_here, swap_run, hPlus, seq_nil]

/-- The loop is `DO`, which runs once where there is no byte at all. -/
theorem toText_loop (bytes : List UInt8) :
    doLoop (toTextPass stray)
        (⟨.int 0 :: .int bytes.length :: .darray h.length :: .other (.nfAddr bytes 0) :: st, fr,
          h ++ [.rawvec []], w⟩ : Machine (Obj α) (Returns α ω)) =
      .ok ⟨.darray h.length :: .other (.nfAddr bytes (max 1 bytes.length)) :: st, fr,
        h ++ [.rawvec ((readBytes stray bytes).map .int)], w⟩ := by
  by_cases hne : bytes = []
  · subst hne
    have hPass := toText_pass (h := h) st (⟨0, 0, false⟩ :: fr) w stray [] 0 []
    have hLoop := doLoop_once ⟨.darray h.length :: .other (.nfAddr [] 0) :: st, fr, h ++ [.rawvec []], w⟩
      ⟨.darray h.length :: .other (.nfAddr [] 1) :: st, fr, h ++ [.rawvec [.int (stray [] 0).toNat]], w⟩
      0 0 (by decide) hPass
    exact hLoop
  · have hPos : 0 < bytes.length := List.length_pos_iff.mpr hne
    have hMax : max 1 bytes.length = bytes.length := max_eq_right hPos
    have hRun := @doLoop_run (Obj α) (Returns α ω) (toTextPass stray)
      (fun i => ⟨.darray h.length :: .other (.nfAddr bytes i) :: st, fr,
        h ++ [.rawvec ((bytesRead stray bytes i).map .int)], w⟩) 0 bytes.length hPos fun i _ _ => ?_
    · rw [readBytes, hMax]
      exact hRun
    · rw [bytesRead_succ, List.map_append]
      exact toText_pass st _ w stray bytes i _

theorem toText_run (literal : List Char) :
    seq [sQuoteRuntime literal, toText stray] (⟨st, fr, h, w⟩ : Machine (Obj α) (Returns α ω)) =
      .ok ⟨.string (.darray h.length) :: st, fr,
        h ++ [.rawvec ((readBytes stray (literal.flatMap String.utf8EncodeChar)).map .int)], w⟩ := by
  have hQuote : sQuoteRuntime literal (⟨st, fr, h, w⟩ : Machine (Obj α) (Returns α ω)) =
      .ok ⟨.int (literal.flatMap String.utf8EncodeChar).length ::
        .other (.nfAddr (literal.flatMap String.utf8EncodeChar) 0) :: st, fr, h, w⟩ := rfl
  have hNew : ∀ st, newDarray (⟨st, fr, h, w⟩ : Machine (Obj α) (Returns α ω)) =
      .ok ⟨.darray h.length :: st, fr, h ++ [.rawvec []], w⟩ := fun _ => rfl
  rw [seq_cons, hQuote, ok_bind]
  simp only [seq_cons, toText, swap_run, ok_bind, hNew, rot_run, lit_run, toText_loop, nip_run]
  rfl

end Literals
end Runs

/-! Characters and their bytes. -/

theorem bytes_ascii {literal : List Char} (h : ∀ c ∈ literal, c.toNat < 128) :
    (literal.flatMap String.utf8EncodeChar).map (fun b => (b.toNat : Int)) =
      literal.map fun c => (c.toNat : Int) := by
  induction literal with
  | nil => rfl
  | cons c literal ih =>
    have hc := h c List.mem_cons_self
    have hByte : (UInt8.ofNat c.toNat).toNat = c.toNat := by
      exact UInt8.toNat_ofNat_of_lt' (Nat.lt_trans hc (by decide))
    rw [List.flatMap_cons, Editor.encode_one hc, List.singleton_append, List.map_cons, List.map_cons, hByte,
      ih fun d hd => h d (List.mem_cons_of_mem _ hd)]

theorem bytes_ne {literal : List Char} (hne : literal ≠ []) :
    literal.flatMap String.utf8EncodeChar ≠ [] := by
  obtain ⟨c, rest, rfl⟩ := List.exists_cons_of_ne_nil hne
  rw [List.flatMap_cons]
  exact List.append_ne_nil_of_left_ne_nil String.utf8EncodeChar_ne_nil _

theorem length_bytes (literal : List Char) :
    (literal.flatMap String.utf8EncodeChar).length = (literal.map Char.utf8Size).sum := by
  rw [List.length_flatMap]
  refine congrArg List.sum (List.map_congr_left fun c _ => ?_)
  exact String.length_utf8EncodeChar c

theorem ascii_of_length {literal : List Char}
    (h : (literal.flatMap String.utf8EncodeChar).length = literal.length) :
    ∀ c ∈ literal, c.toNat < 128 := by
  induction literal with
  | nil => exact fun c hc => absurd hc List.not_mem_nil
  | cons c literal ih =>
    have hLeast : ∀ text : List Char, text.length ≤ (text.flatMap String.utf8EncodeChar).length := by
      intro text
      rw [length_bytes, ← List.length_map Char.utf8Size]
      refine List.length_le_sum_of_one_le _ fun n hn => ?_
      obtain ⟨d, -, rfl⟩ := List.mem_map.mp hn
      exact Char.utf8Size_pos d
    rw [List.flatMap_cons, List.length_append, List.length_cons] at h
    have hHead : (String.utf8EncodeChar c).length = c.utf8Size := String.length_utf8EncodeChar c
    have hPos := Char.utf8Size_pos c
    have hRest := hLeast literal
    have hOne : c.utf8Size = 1 := by omega
    intro d hd
    rcases List.mem_cons.mp hd with rfl | hd
    · exact Nat.lt_succ_of_le (Char.utf8Size_eq_one_iff.mp hOne)
    · exact ih (by omega) d hd
/-! The laws. -/

section Laws
variable (P : TextProgram α ω) (render : Val (Obj α) → StateM (Returns α ω) (List Int))

/-- The word leaves a new string with these characters and the stores that there were. -/
def LeavesText (r : Except Fault (Machine (Obj α) (Returns α ω))) (m : Machine (Obj α) (Returns α ω))
    (cs : List Int) : Prop :=
  ∃ t news, r = .ok ⟨t :: m.stack, m.frames, m.heap ++ news, m.world⟩ ∧ m.heap.length ≤ storeOf t ∧
    Text (m.heap ++ news) t cs

/-- What the words over strings compute; a loop that reads them needs no more passes than they have
characters. -/
structure StringLaws : Prop where
  starts_with : ∀ (m : Machine (Obj α) (Returns α ω)) {s t : Val (Obj α)} {cs ts : List Int},
    Text m.heap s cs → Text m.heap t ts →
    startsWith? P { m with stack := t :: s :: m.stack } =
      .ok { m with stack := .int (boolToFlag (decide (ts <+: cs))) :: m.stack }
  ends_with : ∀ (m : Machine (Obj α) (Returns α ω)) {s t : Val (Obj α)} {cs ts : List Int},
    Text m.heap s cs → Text m.heap t ts →
    endsWith? P { m with stack := t :: s :: m.stack } =
      .ok { m with stack := .int (boolToFlag (decide (ts <:+ cs))) :: m.stack }
  contains : ∀ (m : Machine (Obj α) (Returns α ω)) {s t : Val (Obj α)} {cs ts : List Int},
    Text m.heap s cs → Text m.heap t ts →
    contains? P { m with stack := t :: s :: m.stack } =
      .ok { m with stack := .int (boolToFlag (decide (ts <:+: cs))) :: m.stack }
  trim_left : ∀ (m : Machine (Obj α) (Returns α ω)) {s : Val (Obj α)} {cs : List Int} {fuel : Nat},
    Text m.heap s cs → cs.length < fuel →
    LeavesText (trimLeft P fuel { m with stack := s :: m.stack }) m (cs.dropWhile isWhite)
  trim_right : ∀ (m : Machine (Obj α) (Returns α ω)) {s : Val (Obj α)} {cs : List Int} {fuel : Nat},
    Text m.heap s cs → cs.length < fuel →
    LeavesText (trimRight P fuel { m with stack := s :: m.stack }) m (cs.rdropWhile isWhite)
  trim : ∀ (m : Machine (Obj α) (Returns α ω)) {s : Val (Obj α)} {cs : List Int} {fuel : Nat},
    Text m.heap s cs → cs.length < fuel →
    LeavesText (trim P fuel { m with stack := s :: m.stack }) m ((cs.dropWhile isWhite).rdropWhile isWhite)
  pad_left : ∀ (m : Machine (Obj α) (Returns α ω)) {s : Val (Obj α)} {cs : List Int} (n ch : Int),
    Text m.heap s cs →
    LeavesText (padLeft { m with stack := .int ch :: .int n :: s :: m.stack }) m
      (List.replicate (n - cs.length).toNat ch ++ cs)
  pad_right : ∀ (m : Machine (Obj α) (Returns α ω)) {s : Val (Obj α)} {cs : List Int} (n ch : Int),
    Text m.heap s cs →
    LeavesText (padRight { m with stack := .int ch :: .int n :: s :: m.stack }) m
      (cs ++ List.replicate (n - cs.length).toNat ch)
  repeat_char : ∀ (m : Machine (Obj α) (Returns α ω)) (ch n : Int),
    LeavesText (repeatChar { m with stack := .int n :: .int ch :: m.stack }) m (List.replicate n.toNat ch)
  repeat_string : ∀ (m : Machine (Obj α) (Returns α ω)) {s : Val (Obj α)} {cs : List Int} (n : Int),
    Text m.heap s cs →
    LeavesText (repeatString { m with stack := .int n :: s :: m.stack }) m (List.replicate n.toNat cs).flatten
  /-- Each rendering starts in the state that the one before leaves. -/
  format : ∀ (m : Machine (Obj α) (Returns α ω)) {s d : Val (Obj α)} {cs : List Int}
    {vals : List (Val (Obj α))} {fuel : Nat},
    Text m.heap s cs → Holds m.heap d vals → markers (template cs) ≤ vals.length → cs.length < fuel →
    LeavesText (format P fuel render { m with stack := d :: s :: m.stack })
      { m with world := visited render (vals.take (markers (template cs))) m.world }
      (filled (template cs) (results render (vals.take (markers (template cs))) m.world))

variable {P}

theorem leavesText_new {r : Except Fault (Machine (Obj α) (Returns α ω))} (m : Machine (Obj α) (Returns α ω))
    {cs : List Int} {rest : List (Store (Obj α))}
    (h : r = .ok ⟨.string (.darray m.heap.length) :: m.stack, m.frames,
      m.heap ++ .rawvec (cs.map .int) :: rest, m.world⟩) : LeavesText r m cs :=
  ⟨_, _, h, Nat.le_refl _, text_here _ _ _⟩

theorem stringLaws (hP : Plain P) : StringLaws P render where
  starts_with m _ _ _ _ hs ht := startsWith?_run m.stack m.frames m.world hP hs.holds ht.holds
  ends_with m _ _ _ _ hs ht := endsWith?_run m.stack m.frames m.world hP hs.holds ht.holds
  contains m _ _ _ _ hs ht := contains?_run m.stack m.frames m.world hP hs.holds ht.holds
  trim_left m _ _ _ hs hFuel := leavesText_new m (trimLeft_run m.stack m.frames m.world hP hs.holds hFuel)
  trim_right m _ _ _ hs hFuel := leavesText_new m (trimRight_run m.stack m.frames m.world hP hs.holds hFuel)
  trim m _ _ _ hs hFuel := leavesText_new m (trim_run m.stack m.frames m.world hP hs.holds hFuel)
  pad_left m _ _ n ch hs := leavesText_new m (padLeft_run m.stack m.frames m.world hs.holds n ch)
  pad_right m _ _ n ch hs := leavesText_new m (padRight_run m.stack m.frames m.world hs.holds n ch)
  repeat_char m ch n := leavesText_new m (repeatChar_run m.stack m.frames m.world ch n)
  repeat_string m _ _ n hs := leavesText_new m (repeatString_run m.stack m.frames m.world hs.holds n)
  format m _ _ _ _ _ hs hd hMarkers hFuel := by
    obtain ⟨news, hRun⟩ := format_run m.stack m.frames m.world render hP hs.holds hd hMarkers hFuel
    exact leavesText_new { m with world := _ } hRun

/-- A literal that `>string` leaves as it is written. -/
def LiteralKept (stray : List UInt8 → Nat → UInt8) (literal : List Char)
    (m : Machine (Obj α) (Returns α ω)) : Prop :=
  LeavesText (seq [sQuoteRuntime literal, toText stray] m) m (literal.map fun c => (c.toNat : Int))

theorem literalKept_iff (stray : List UInt8 → Nat → UInt8) (literal : List Char)
    (m : Machine (Obj α) (Returns α ω)) :
    LiteralKept stray literal m ↔ literal ≠ [] ∧ ∀ c ∈ literal, c.toNat < 128 := by
  have hRun := toText_run (h := m.heap) m.stack m.frames m.world stray literal
  constructor
  · rintro ⟨t, news, hLeft, -, hText⟩
    rw [hRun] at hLeft
    simp only [Except.ok.injEq, Machine.mk.injEq, List.cons.injEq] at hLeft
    obtain ⟨⟨rfl, -⟩, -, hHeap, -⟩ := hLeft
    have hHere := text_here m.heap [] (readBytes stray (literal.flatMap String.utf8EncodeChar))
    rw [hHeap] at hHere
    have hSame := List.map_injective_iff.mpr (fun _ _ => Val.int.inj) (holds_unique hHere.holds hText.holds)
    have hLength := congrArg List.length hSame
    rw [readBytes, bytesRead, List.length_map, List.length_range, List.length_map] at hLength
    have hne : literal ≠ [] := by
      rintro rfl
      cases hLength
    have hPos := List.length_pos_iff.mpr (bytes_ne hne)
    exact ⟨hne, ascii_of_length (by omega)⟩
  · rintro ⟨hne, hAscii⟩
    rw [readBytes_ne stray (bytes_ne hne), bytes_ascii hAscii] at hRun
    exact leavesText_new m hRun

/-- Where a literal is not empty and all ASCII, and there alone, the text words compute their
definitions. -/
theorem textWords_iff (hP : Plain P) (stray : List UInt8 → Nat → UInt8) (literal : List Char)
    (m : Machine (Obj α) (Returns α ω)) :
    (LiteralKept stray literal m ∧ StringLaws P render) ↔
      literal ≠ [] ∧ ∀ c ∈ literal, c.toNat < 128 := by
  rw [literalKept_iff]
  exact and_iff_left (stringLaws render hP)

theorem textWords_plainProgram :
    (LiteralKept (fun _ _ => 0) ['o', 'k'] (⟨[], [], [], ⟨[], ()⟩⟩ : Machine (Obj Unit) (Returns Unit Unit)) ∧
        StringLaws plainProgram fun _ => pure [48]) ↔
      ['o', 'k'] ≠ [] ∧ ∀ c ∈ ['o', 'k'], c.toNat < 128 :=
  textWords_iff _ plain_plainProgram _ _ _

/-- The empty literal comes out with a character that it does not have. -/
theorem emptyLiteral_stray :
    ¬ (LiteralKept (fun _ _ => 7) [] (⟨[], [], [], ⟨[], ()⟩⟩ : Machine (Obj Unit) (Returns Unit Unit)) ∧
      StringLaws plainProgram fun _ => pure [48]) := by
  rw [literalKept_iff]
  exact fun h => h.1.1 rfl

end Laws
end FactorForth.Correctness
