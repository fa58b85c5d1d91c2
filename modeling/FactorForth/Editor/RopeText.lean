import FactorForth.Editor.Rope
import Mathlib.Data.List.Forall2

/-! A rope stands for a list of code points: its cached metrics are exact, no operation fails, and
each one does to the rope what it says on the list. -/

namespace FactorForth.Editor

namespace Node

/-- The buffers of the leaves, from left to right. -/
def leaves : Node → List (List UInt32)
  | leaf buf _ => [buf]
  | branch l r _ _ _ _ => l.leaves ++ r.leaves

def text (n : Node) : List UInt32 := n.leaves.flatten

def treeHeight : Node → Nat
  | leaf _ _ => 0
  | branch l r _ _ _ _ => 1 + max l.treeHeight r.treeHeight

/-- Every cached metric is the recomputed one. -/
def Exact : Node → Prop
  | leaf buf newlineCount => newlineCount = countNewlines buf
  | branch l r leftLen totalLen totalNewlines height =>
    l.Exact ∧ r.Exact ∧ leftLen = l.text.length ∧ totalLen = l.text.length + r.text.length ∧
      totalNewlines = countNewlines l.text + countNewlines r.text ∧
      height = 1 + max l.treeHeight r.treeHeight

@[simp] theorem text_leaf (buf : List UInt32) (k : Nat) : (leaf buf k).text = buf := by
  simp [text, leaves]

@[simp] theorem text_branch (l r : Node) (a b c d : Nat) :
    (branch l r a b c d).text = l.text ++ r.text := by
  simp [text, leaves]

@[simp] theorem leaves_join (l r : Node) : (join l r).leaves = l.leaves ++ r.leaves := rfl

@[simp] theorem text_join (l r : Node) : (join l r).text = l.text ++ r.text := by
  simp [join]

@[simp] theorem text_ofBuf (buf : List UInt32) : (ofBuf buf).text = buf := by
  simp [ofBuf]

@[simp] theorem leaves_ofBuf (buf : List UInt32) : (ofBuf buf).leaves = [buf] := rfl

@[simp] theorem text_emptyLeaf : emptyLeaf.text = [] := text_ofBuf []

theorem ofBuf_exact (buf : List UInt32) : (ofBuf buf).Exact := rfl

theorem text_of_leaves_eq {n m : Node} (h : n.leaves = m.leaves) : n.text = m.text := by
  unfold text
  rw [h]

theorem countNewlines_append (xs ys : List UInt32) :
    countNewlines (xs ++ ys) = countNewlines xs + countNewlines ys :=
  List.countP_append

namespace Exact

theorem textLen_eq {n : Node} (h : n.Exact) : n.textLen = n.text.length := by
  cases n with
  | leaf buf k => simp [textLen]
  | branch l r a b c d =>
    obtain ⟨_, _, _, hTotal, _⟩ := h
    simp [textLen, hTotal]

theorem newlines_eq {n : Node} (h : n.Exact) : n.newlines = countNewlines n.text := by
  cases n with
  | leaf buf k =>
    have hk : k = countNewlines buf := h
    simp [newlines, hk]
  | branch l r a b c d =>
    obtain ⟨_, _, _, _, hLines, _⟩ := h
    simp [newlines, hLines, countNewlines_append]

theorem cachedHeight_eq {n : Node} (h : n.Exact) : n.cachedHeight = n.treeHeight := by
  cases n with
  | leaf buf k => rfl
  | branch l r a b c d =>
    obtain ⟨_, _, _, _, _, hHeight⟩ := h
    exact hHeight

theorem join {l r : Node} (hl : l.Exact) (hr : r.Exact) : (Node.join l r).Exact := by
  refine ⟨hl, hr, hl.textLen_eq, ?_, ?_, ?_⟩
  · rw [hl.textLen_eq, hr.textLen_eq]
  · rw [hl.newlines_eq, hr.newlines_eq]
  · rw [hl.cachedHeight_eq, hr.cachedHeight_eq]

theorem text_eq_nil {n : Node} (h : n.Exact) (hEmpty : n.textLen = 0) : n.text = [] :=
  List.length_eq_zero_iff.mp (h.textLen_eq ▸ hEmpty)

end Exact

/-! Rotations keep the row of leaves. -/

theorem leaves_rotateRight (n : Node) : (rotateRight n).leaves = n.leaves := by
  unfold rotateRight
  split <;> simp [leaves]

theorem leaves_rotateLeft (n : Node) : (rotateLeft n).leaves = n.leaves := by
  unfold rotateLeft
  split <;> simp [leaves]

theorem Exact.rotateRight {n : Node} (h : n.Exact) : (rotateRight n).Exact := by
  unfold Editor.rotateRight
  split
  · obtain ⟨⟨hll, hlr, _⟩, hr, _⟩ := h
    exact hll.join (hlr.join hr)
  · exact h.1.join h.2.1
  · exact h

theorem Exact.rotateLeft {n : Node} (h : n.Exact) : (rotateLeft n).Exact := by
  unfold Editor.rotateLeft
  split
  · obtain ⟨hl, ⟨hrl, hrr, _⟩, _⟩ := h
    exact (hl.join hrl).join hrr
  · exact h.1.join h.2.1
  · exact h

/-- Rebalancing never takes the children of a leaf. -/
theorem balance_some {n : Node} (h : n.Exact) :
    ∃ m, balance n = some m ∧ m.Exact ∧ m.leaves = n.leaves := by
  cases n with
  | leaf buf k => exact ⟨leaf buf k, by simp [balance, balanceFactor], h, rfl⟩
  | branch l r a b c d =>
    obtain ⟨hl, hr, _⟩ := id h
    unfold balance
    split
    · refine ⟨_, rfl, ?_⟩
      dsimp only
      split
      · refine ⟨(hl.rotateLeft.join hr).rotateRight, ?_⟩
        simp [leaves_rotateRight, leaves_rotateLeft, leaves]
      · refine ⟨(hl.join hr).rotateRight, ?_⟩
        simp [leaves_rotateRight, leaves]
    · split
      · refine ⟨_, rfl, ?_⟩
        dsimp only
        split
        · refine ⟨(hl.join hr.rotateRight).rotateLeft, ?_⟩
          simp [leaves_rotateRight, leaves_rotateLeft, leaves]
        · refine ⟨(hl.join hr).rotateLeft, ?_⟩
          simp [leaves_rotateLeft, leaves]
      · exact ⟨_, rfl, h, rfl⟩

end Node

open Node

/-- `n` holds the text `xs`, with exact metrics. -/
structure Holds (n : Node) (xs : List UInt32) : Prop where
  exact : n.Exact
  text : n.text = xs

namespace Holds

theorem textLen {n : Node} {xs : List UInt32} (h : Holds n xs) : n.textLen = xs.length := by
  rw [h.exact.textLen_eq, h.text]

theorem self {n : Node} (h : n.Exact) : Holds n n.text := ⟨h, rfl⟩

theorem ofBuf (buf : List UInt32) : Holds (Node.ofBuf buf) buf := ⟨ofBuf_exact buf, text_ofBuf buf⟩

theorem empty : Holds emptyLeaf [] := ofBuf []

theorem join {l r : Node} {xs ys : List UInt32} (hl : Holds l xs) (hr : Holds r ys) :
    Holds (Node.join l r) (xs ++ ys) :=
  ⟨hl.exact.join hr.exact, by rw [text_join, hl.text, hr.text]⟩

end Holds

theorem mergedLeaf_holds {l r m : Node} (h : mergedLeaf l r = some m) :
    Holds m (l.text ++ r.text) := by
  unfold mergedLeaf at h
  split at h
  · split at h
    · obtain rfl := Option.some.inj h
      simpa using Holds.ofBuf _
    · cases h
  · cases h

/-- Joining never takes the children of a leaf, since a leaf is not the taller side. -/
theorem joinNodes_holds (l r : Node) {xs ys : List UInt32} (hl : Holds l xs) (hr : Holds r ys) :
    ∃ n, joinNodes l r = some n ∧ Holds n (xs ++ ys) := by
  induction hSize : l.size + r.size using Nat.strong_induction_on generalizing l r xs ys with
  | _ size ih =>
    rw [joinNodes.eq_def]
    by_cases hEmptyL : l.textLen = 0
    · have hx : xs = [] := hl.text.symm.trans (hl.exact.text_eq_nil hEmptyL)
      exact ⟨r, by rw [if_pos hEmptyL], by simpa [hx] using hr⟩
    rw [if_neg hEmptyL]
    by_cases hEmptyR : r.textLen = 0
    · have hy : ys = [] := hr.text.symm.trans (hr.exact.text_eq_nil hEmptyR)
      exact ⟨l, by rw [if_pos hEmptyR], by simpa [hy] using hl⟩
    rw [if_neg hEmptyR]
    cases hMerged : mergedLeaf l r with
    | some m => exact ⟨m, rfl, by simpa [hl.text, hr.text] using mergedLeaf_holds hMerged⟩
    | none =>
      dsimp only
      split
      · exact ⟨_, rfl, hl.join hr⟩
      · rename_i hFar
        split
        · rename_i hTaller
          cases l with
          | leaf buf k => exact absurd hTaller (by simp [cachedHeight])
          | branch ll lr a b c d =>
            have hLess : lr.size + r.size < size := by
              rw [← hSize, Node.size]
              omega
            obtain ⟨hll, hlr, _⟩ := hl.exact
            obtain ⟨right, hRight, hHolds⟩ := ih (lr.size + r.size) hLess lr r (Holds.self hlr) hr rfl
            have hJoined := (Holds.self hll).join hHolds
            obtain ⟨n, hn, hExact, hLeaves⟩ := balance_some hJoined.exact
            refine ⟨n, by simp [hRight, hn], hExact, ?_⟩
            rw [text_of_leaves_eq hLeaves, hJoined.text, ← hl.text, text_branch, List.append_assoc]
        · -- the left is not the taller one and the two are apart, so the right is a branch
          cases r with
          | leaf buf k =>
            have hFlat : (leaf buf k).cachedHeight = 0 := rfl
            omega
          | branch rl rr a b c d =>
            have hLess : l.size + rl.size < size := by
              rw [← hSize, Node.size]
              omega
            obtain ⟨hrl, hrr, _⟩ := hr.exact
            obtain ⟨left, hLeft, hHolds⟩ := ih (l.size + rl.size) hLess l rl hl (Holds.self hrl) rfl
            have hJoined := hHolds.join (Holds.self hrr)
            obtain ⟨n, hn, hExact, hLeaves⟩ := balance_some hJoined.exact
            refine ⟨n, by simp [hLeft, hn], hExact, ?_⟩
            rw [text_of_leaves_eq hLeaves, hJoined.text, ← hr.text, text_branch, List.append_assoc]

/-- The split point lies inside every leaf that is split. -/
theorem splitNode_holds (n : Node) (pos : Nat) {xs : List UInt32} (h : Holds n xs) :
    ∃ l r, splitNode n pos = some (l, r) ∧ Holds l (xs.take pos) ∧ Holds r (xs.drop pos) := by
  induction n generalizing pos xs with
  | leaf buf k =>
    rw [splitNode]
    have hText : buf = xs := by simpa using h.text
    split
    · rename_i hZero
      exact ⟨_, _, rfl, by simpa [hZero] using Holds.empty, by simpa [hZero] using h⟩
    split
    · rename_i hZero hPast
      rw [h.textLen] at hPast
      refine ⟨_, _, rfl, by simpa [List.take_of_length_le hPast] using h, ?_⟩
      simpa [List.drop_of_length_le hPast] using Holds.empty
    · rename_i hZero hInside
      have hLen : pos ≤ buf.length := by
        simp only [textLen] at hInside
        omega
      exact ⟨_, _, by rw [if_pos hLen], by simpa [hText] using Holds.ofBuf _,
        by simpa [hText] using Holds.ofBuf _⟩
  | branch left right leftLen b c d ihLeft ihRight =>
    rw [splitNode]
    obtain ⟨hLeft, hRight, hLen, _⟩ := id h.exact
    have hText : xs = left.text ++ right.text := by rw [← h.text, text_branch]
    split
    · rename_i hZero
      exact ⟨_, _, rfl, by simpa [hZero] using Holds.empty, by simpa [hZero] using h⟩
    split
    · rename_i hZero hPast
      rw [h.textLen] at hPast
      refine ⟨_, _, rfl, by simpa [List.take_of_length_le hPast] using h, ?_⟩
      simpa [List.drop_of_length_le hPast] using Holds.empty
    · dsimp only
      split
      · -- the cut falls between the children
        rename_i hEq
        refine ⟨left, right, rfl, ?_, ?_⟩
        · rw [hText, hEq, hLen, List.take_left]
          exact Holds.self hLeft
        · rw [hText, hEq, hLen, List.drop_left]
          exact Holds.self hRight
      · split
        · -- inside the left child, whose second half is joined to the right one
          rename_i hNe hLess
          obtain ⟨ll, lr, hSplit, hll, hlr⟩ := ihLeft pos (Holds.self hLeft)
          obtain ⟨joined, hJoin, hJoined⟩ := joinNodes_holds lr right hlr (Holds.self hRight)
          have hWithin : pos ≤ left.text.length := by omega
          refine ⟨ll, joined, by simp [hSplit, hJoin], ?_, ?_⟩
          · rw [hText, List.take_append_of_le_length hWithin]
            exact hll
          · rw [hText, List.drop_append_of_le_length hWithin]
            exact hJoined
        · -- inside the right child, at what is left of the position
          rename_i hNe hMore
          obtain ⟨rl, rr, hSplit, hrl, hrr⟩ := ihRight (pos - leftLen) (Holds.self hRight)
          obtain ⟨joined, hJoin, hJoined⟩ := joinNodes_holds left rl (Holds.self hLeft) hrl
          have hWithin : left.text.length ≤ pos := by omega
          refine ⟨joined, rr, by simp [hSplit, hJoin], ?_, ?_⟩
          · rw [hText, List.take_append, List.take_of_length_le hWithin, ← hLen]
            exact hJoined
          · rw [hText, List.drop_append, List.drop_of_length_le hWithin, ← hLen, List.nil_append]
            exact hrr

theorem insertNode_holds {root insertion : Node} {xs ys : List UInt32} (pos : Nat)
    (hRoot : Holds root xs) (hInsertion : Holds insertion ys) :
    ∃ n, insertNode root pos insertion = some n ∧ Holds n (xs.take pos ++ ys ++ xs.drop pos) := by
  obtain ⟨l, r, hSplit, hl, hr⟩ := splitNode_holds root pos hRoot
  obtain ⟨left, hLeft, hLeftHolds⟩ := joinNodes_holds l insertion hl hInsertion
  obtain ⟨n, hn, hHolds⟩ := joinNodes_holds left r hLeftHolds hr
  exact ⟨n, by simp [insertNode, hSplit, hLeft, hn], hHolds⟩

theorem deleteRange_holds {root : Node} {xs : List UInt32} (pos count : Nat)
    (hRoot : Holds root xs) :
    ∃ n, deleteRange root pos count = some n ∧ Holds n (xs.take pos ++ xs.drop (pos + count)) := by
  obtain ⟨before, rest, hFirst, hBefore, hRest⟩ := splitNode_holds root pos hRoot
  obtain ⟨gone, after, hSecond, _, hAfter⟩ := splitNode_holds rest count hRest
  obtain ⟨n, hn, hHolds⟩ := joinNodes_holds before after hBefore hAfter
  rw [List.drop_drop] at hHolds
  exact ⟨n, by simp [deleteRange, hFirst, hSecond, hn], hHolds⟩

/-! Building. -/

/-- A row of nodes and the texts they hold. -/
def HoldsAll : List Node → List (List UInt32) → Prop := List.Forall₂ Holds

theorem mergePairs_holds : ∀ {nodes : List Node} {texts : List (List UInt32)},
    HoldsAll nodes texts →
      ∃ merged, HoldsAll (mergePairs nodes) merged ∧ merged.flatten = texts.flatten
  | _, _, .nil => ⟨[], .nil, rfl⟩
  | _, _, .cons hl .nil => ⟨_, .cons hl .nil, rfl⟩
  | _, _, .cons hl (.cons hr hRest) => by
    obtain ⟨merged, hMerged, hFlat⟩ := mergePairs_holds hRest
    exact ⟨_, .cons (hl.join hr) hMerged, by simp [hFlat]⟩

theorem mergeAll_holds (nodes : List Node) {texts : List (List UInt32)}
    (h : HoldsAll nodes texts) (hNe : nodes ≠ []) :
    ∃ n, mergeAll nodes = some n ∧ Holds n texts.flatten := by
  rw [mergeAll.eq_def]
  match nodes, h with
  | [], _ => exact absurd rfl hNe
  | [root], .cons hRoot .nil => exact ⟨root, rfl, by simpa using hRoot⟩
  | l :: r :: rest, h =>
    obtain ⟨merged, hMerged, hFlat⟩ := mergePairs_holds h
    have hLess : (mergePairs (l :: r :: rest)).length < (l :: r :: rest).length := by
      rw [mergePairs_length]
      simp only [List.length_cons]
      omega
    obtain ⟨n, hn, hHolds⟩ := mergeAll_holds (mergePairs (l :: r :: rest)) hMerged (by simp [mergePairs])
    exact ⟨n, hn, hFlat ▸ hHolds⟩
termination_by nodes.length
decreasing_by exact hLess

/-- The chunk of the text with number `i`. -/
def chunkText (text : List UInt32) (i : Nat) : List UInt32 :=
  (text.drop (i * leafMax)).take leafMax

theorem chunk_eq {text : List UInt32} {i : Nat} (h : i < chunkCount text.length) :
    chunk text i = some (Node.ofBuf (chunkText text i)) := by
  have hStart : i * leafMax ≤ text.length := by
    simp only [chunkCount, leafMax] at *
    omega
  have hBounds : i * leafMax ≤ min (i * leafMax + leafMax) text.length ∧
      min (i * leafMax + leafMax) text.length ≤ text.length := by omega
  have hTake : (text.drop (i * leafMax)).take (min (i * leafMax + leafMax) text.length - i * leafMax)
      = chunkText text i := by
    unfold chunkText
    rw [List.take_eq_take_iff, List.length_drop]
    omega
  rw [chunk, sliceOf, if_pos hBounds, Option.map_some, hTake]

theorem chunks_eq {text : List UInt32} {count : Nat} (h : count ≤ chunkCount text.length) :
    (List.range count).mapM (chunk text) =
      some ((List.range count).map fun i => Node.ofBuf (chunkText text i)) := by
  have hAll : ∀ indices : List Nat, (∀ i ∈ indices, i < chunkCount text.length) →
      indices.mapM (chunk text) = some (indices.map fun i => Node.ofBuf (chunkText text i)) := by
    intro indices
    induction indices with
    | nil => intro _; rfl
    | cons i rest ih =>
      intro hIn
      rw [List.mapM_cons, chunk_eq (hIn i List.mem_cons_self),
        ih fun j hj => hIn j (List.mem_cons_of_mem _ hj)]
      rfl
  apply hAll
  intro i hi
  exact Nat.lt_of_lt_of_le (List.mem_range.mp hi) h

theorem chunkTexts_flatten (text : List UInt32) (count : Nat) :
    ((List.range count).map (chunkText text)).flatten = text.take (count * leafMax) := by
  induction count with
  | zero => simp
  | succ count ih =>
    rw [List.range_succ, List.map_append, List.flatten_append, ih, Nat.succ_mul, List.take_add]
    simp [chunkText]

/-- Every slice of the build lies inside the text, and one root is left at its end. -/
theorem buildRopeFromSlice_holds (text : List UInt32) :
    ∃ n, buildRopeFromSlice text = some n ∧ Holds n text := by
  unfold buildRopeFromSlice
  split
  · rename_i hEmpty
    exact ⟨_, rfl, by simpa [List.isEmpty_iff.mp hEmpty] using Holds.empty⟩
  split
  · exact ⟨_, rfl, Holds.ofBuf text⟩
  · rename_i hNe _
    have hPos : 0 < text.length := List.length_pos_iff.mpr (by simpa using hNe)
    have hCount : 0 < chunkCount text.length := by
      simp only [chunkCount, leafMax]
      omega
    have hRow : HoldsAll
        ((List.range (chunkCount text.length)).map fun i => Node.ofBuf (chunkText text i))
        ((List.range (chunkCount text.length)).map (chunkText text)) := by
      unfold HoldsAll
      rw [List.forall₂_map_left_iff, List.forall₂_map_right_iff, List.forall₂_same]
      exact fun i _ => Holds.ofBuf _
    obtain ⟨n, hn, hHolds⟩ := mergeAll_holds _ hRow (by simp; omega)
    refine ⟨n, by rw [chunks_eq (Nat.le_refl _)]; exact hn, ?_⟩
    rw [chunkTexts_flatten, List.take_of_length_le] at hHolds
    · exact hHolds
    · simp only [chunkCount, leafMax]
      omega

/-! Reading. -/

theorem charAtNode_eq (n : Node) (pos : Nat) {xs : List UInt32} (h : Holds n xs) :
    charAtNode n pos = xs[pos]? := by
  induction n generalizing pos xs with
  | leaf buf k =>
    have hText : buf = xs := by simpa using h.text
    rw [charAtNode, hText]
  | branch left right leftLen b c d ihLeft ihRight =>
    obtain ⟨hLeft, hRight, hLen, _⟩ := h.exact
    rw [charAtNode, ← h.text, text_branch]
    split
    · rename_i hLess
      rw [ihLeft pos (Holds.self hLeft), List.getElem?_append_left (by omega)]
    · rename_i hMore
      rw [ihRight _ (Holds.self hRight), List.getElem?_append_right (by omega), hLen]

theorem sliceOf_clamped (xs : List UInt32) {start stop : Nat} (h : start < stop) :
    sliceOf xs (min start xs.length) (min stop xs.length) = some ((xs.take stop).drop start) := by
  have hBounds : min start xs.length ≤ min stop xs.length ∧ min stop xs.length ≤ xs.length := by
    omega
  rw [sliceOf, if_pos hBounds, List.drop_take]
  congr 1
  by_cases hStart : start ≤ xs.length
  · rw [Nat.min_eq_left hStart, List.take_eq_take_iff, List.length_drop]
    omega
  · rw [List.drop_of_length_le (by omega), List.drop_of_length_le (by omega)]
    simp

theorem collectRange_eq (n : Node) (start stop : Nat) {xs : List UInt32} (h : Holds n xs) :
    collectRange n start stop = some ((xs.take stop).drop start) := by
  induction n generalizing start stop xs with
  | leaf buf k =>
    have hText : buf = xs := by simpa using h.text
    rw [collectRange, hText]
    split
    · rename_i hEmpty
      rw [List.drop_of_length_le]
      exact Nat.le_trans (List.length_take_le _ _) hEmpty
    · exact sliceOf_clamped xs (by omega)
  | branch left right leftLen b c d ihLeft ihRight =>
    obtain ⟨hLeft, hRight, hLen, _⟩ := h.exact
    rw [collectRange, ← h.text, text_branch]
    split
    · rename_i hEmpty
      rw [List.drop_of_length_le]
      exact Nat.le_trans (List.length_take_le _ _) hEmpty
    · rename_i hRange
      have hl : (if start < leftLen then collectRange left start (min stop leftLen) else some [])
          = some ((left.text.take stop).drop start) := by
        split
        · rw [ihLeft _ _ (Holds.self hLeft), hLen, ← List.take_eq_take_min]
        · rw [List.drop_of_length_le]
          simp only [List.length_take]
          omega
      have hr : (if leftLen < stop then collectRange right (start - leftLen) (stop - leftLen)
          else some []) = some ((right.text.take (stop - left.text.length)).drop
            (start - (left.text.take stop).length)) := by
        split
        · rename_i hOver
          rw [ihRight _ _ (Holds.self hRight), hLen, List.take_of_length_le (l := left.text) (by omega)]
        · rw [show stop - left.text.length = 0 by omega]
          simp
      rw [hl, Option.bind_some, hr, Option.map_some, List.take_append, List.drop_append]

namespace RopeBuffer

/-- The text of the buffer. -/
def contents (r : RopeBuffer) : List UInt32 := r.root.text

/-- All metrics of the tree are exact. -/
def Exact (r : RopeBuffer) : Prop := r.root.Exact

variable {r : RopeBuffer}

theorem Exact.holds (h : r.Exact) : Holds r.root r.contents := Holds.self h

theorem len_eq (h : r.Exact) : r.len = r.contents.length := h.textLen_eq

theorem charAt_eq (h : r.Exact) (pos : Nat) : r.charAt pos = some r.contents[pos]? := by
  unfold charAt
  rw [len_eq h]
  split
  · rename_i hPast
    rw [List.getElem?_eq_none hPast]
  · rename_i hIn
    rw [charAtNode_eq r.root pos h.holds, List.getElem?_eq_getElem (by omega)]
    rfl

end RopeBuffer

/-! The same operations on a plain list, with positions clamped to its end. -/

def listSlice (xs : List UInt32) (start stop : Nat) : List UInt32 :=
  (xs.take (min stop xs.length)).drop (min start xs.length)

def listInsert (xs : List UInt32) (pos : Nat) (text : List UInt32) : List UInt32 :=
  xs.take (min pos xs.length) ++ text ++ xs.drop (min pos xs.length)

def listDelete (xs : List UInt32) (pos count : Nat) : List UInt32 :=
  xs.take (min pos xs.length) ++ xs.drop (min (pos + count) xs.length)

theorem take_min_length (xs : List UInt32) (k : Nat) : xs.take (min k xs.length) = xs.take k :=
  List.take_eq_take_min.symm

theorem drop_min_length (xs : List UInt32) (k : Nat) : xs.drop (min k xs.length) = xs.drop k := by
  by_cases h : k ≤ xs.length
  · rw [Nat.min_eq_left h]
  · rw [Nat.min_eq_right (by omega), List.drop_of_length_le (Nat.le_refl _),
      List.drop_of_length_le (by omega)]

inductive Edit where
  | insert (pos : Nat) (text : List UInt32)
  | delete (pos count : Nat)
  | replace (pos count : Nat) (text : List UInt32)

namespace Edit

def apply (r : RopeBuffer) : Edit → Option RopeBuffer
  | insert pos text => r.insert pos text
  | delete pos count => r.delete pos count
  | replace pos count text => r.replace pos count text

def onList (xs : List UInt32) : Edit → List UInt32
  | insert pos text => listInsert xs pos text
  | delete pos count => listDelete xs pos count
  | replace pos count text =>
    xs.take (min pos xs.length) ++ text ++ xs.drop (min (pos + count) xs.length)

end Edit

/-- The edits one after the other. -/
def runEdits (r : RopeBuffer) (edits : List Edit) : Option RopeBuffer := edits.foldlM Edit.apply r

namespace RopeBuffer

variable {r : RopeBuffer}

theorem slice_eq (h : r.Exact) (start stop : Nat) :
    r.slice start stop = some (listSlice r.contents start stop) := by
  unfold slice listSlice
  rw [len_eq h]
  dsimp only
  split
  · rename_i hEmpty
    rw [List.drop_of_length_le]
    exact Nat.le_trans (List.length_take_le _ _) hEmpty
  · rw [collectRange_eq r.root _ _ h.holds]

theorem fromSlice_holds (text : List UInt32) :
    ∃ r, fromSlice text = some r ∧ r.Exact ∧ r.contents = text := by
  obtain ⟨n, hn, hHolds⟩ := buildRopeFromSlice_holds text
  exact ⟨⟨n⟩, by simp [fromSlice, hn], hHolds.exact, hHolds.text⟩

theorem insert_holds (h : r.Exact) (pos : Nat) (text : List UInt32) :
    ∃ r', r.insert pos text = some r' ∧ r'.Exact ∧
      r'.contents = listInsert r.contents pos text := by
  unfold insert listInsert
  rw [take_min_length, drop_min_length]
  split
  · rename_i hEmpty
    exact ⟨r, rfl, h, by simp [List.isEmpty_iff.mp hEmpty]⟩
  · obtain ⟨insertion, hBuild, hInsertion⟩ := buildRopeFromSlice_holds text
    obtain ⟨n, hn, hHolds⟩ := insertNode_holds pos h.holds hInsertion
    exact ⟨⟨n⟩, by simp [hBuild, hn], hHolds.exact, hHolds.text⟩

theorem delete_holds (h : r.Exact) (pos count : Nat) :
    ∃ r', r.delete pos count = some r' ∧ r'.Exact ∧
      r'.contents = listDelete r.contents pos count := by
  unfold delete listDelete
  rw [take_min_length, drop_min_length, len_eq h]
  split
  · rename_i hNothing
    refine ⟨r, rfl, h, ?_⟩
    rcases hNothing with hZero | hPast
    · simp [hZero]
    · rw [List.take_of_length_le hPast, List.drop_of_length_le (by omega), List.append_nil]
  · rename_i hSome
    obtain ⟨n, hn, hHolds⟩ := deleteRange_holds pos (min count (r.contents.length - pos)) h.holds
    refine ⟨⟨n⟩, by simp [hn], hHolds.exact, hHolds.text.trans ?_⟩
    congr 1
    rw [← drop_min_length _ (pos + count)]
    congr 1
    omega

theorem replace_holds (h : r.Exact) (pos count : Nat) (text : List UInt32) :
    ∃ r', r.replace pos count text = some r' ∧ r'.Exact ∧
      r'.contents = (Edit.replace pos count text).onList r.contents := by
  obtain ⟨cut, hCut, hCutExact, hCutText⟩ := delete_holds h pos count
  obtain ⟨r', hr', hExact, hText⟩ := insert_holds hCutExact pos text
  refine ⟨r', by simp [replace, hCut, hr'], hExact, hText.trans ?_⟩
  rw [hCutText, listInsert, listDelete, Edit.onList, take_min_length, drop_min_length,
    take_min_length, drop_min_length]
  by_cases hPast : pos ≤ r.contents.length
  · have hLen : (r.contents.take pos).length = pos := List.length_take_of_le hPast
    rw [List.take_left' hLen, List.drop_left' hLen]
  · have hAll : r.contents.length ≤ pos := by omega
    have hRest : r.contents.drop (pos + count) = [] := List.drop_of_length_le (by omega)
    rw [hRest, List.append_nil, List.take_of_length_le hAll, List.take_of_length_le hAll,
      List.drop_of_length_le hAll]

end RopeBuffer

theorem Edit.apply_holds {r : RopeBuffer} (h : r.Exact) (e : Edit) :
    ∃ r', e.apply r = some r' ∧ r'.Exact ∧ r'.contents = e.onList r.contents :=
  match e with
  | .insert pos text => RopeBuffer.insert_holds h pos text
  | .delete pos count => RopeBuffer.delete_holds h pos count
  | .replace pos count text => RopeBuffer.replace_holds h pos count text

theorem runEdits_holds {r : RopeBuffer} (h : r.Exact) (edits : List Edit) :
    ∃ r', runEdits r edits = some r' ∧ r'.Exact ∧
      r'.contents = edits.foldl Edit.onList r.contents := by
  induction edits generalizing r with
  | nil => exact ⟨r, rfl, h, rfl⟩
  | cons e rest ih =>
    obtain ⟨next, hNext, hExact, hText⟩ := e.apply_holds h
    obtain ⟨r', hRun, hExact', hText'⟩ := ih hExact
    refine ⟨r', ?_, hExact', by rw [hText', hText]; rfl⟩
    rw [runEdits, List.foldlM_cons, hNext]
    exact hRun

/-- From any text and after any edits the rope reads as the plain list does, and nothing on the way
fails. -/
theorem rope_refines_list (start : List UInt32) (edits : List Edit) :
    ∃ r, (RopeBuffer.fromSlice start).bind (runEdits · edits) = some r ∧
      r.contents = edits.foldl Edit.onList start ∧
      r.len = (edits.foldl Edit.onList start).length ∧
      (∀ pos, r.charAt pos = some (edits.foldl Edit.onList start)[pos]?) ∧
      ∀ s e, r.slice s e = some (listSlice (edits.foldl Edit.onList start) s e) := by
  obtain ⟨first, hFirst, hExactFirst, hTextFirst⟩ := RopeBuffer.fromSlice_holds start
  obtain ⟨r, hRun, hExact, hText⟩ := runEdits_holds hExactFirst edits
  rw [hTextFirst] at hText
  refine ⟨r, by rw [hFirst]; exact hRun, hText, ?_, ?_, ?_⟩
  · rw [RopeBuffer.len_eq hExact, hText]
  · intro pos
    rw [RopeBuffer.charAt_eq hExact, hText]
  · intro s e
    rw [RopeBuffer.slice_eq hExact, hText]

end FactorForth.Editor
