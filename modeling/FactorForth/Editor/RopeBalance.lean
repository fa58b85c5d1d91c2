import FactorForth.Editor.RopeText
import Mathlib.Tactic.Ring

/-! The shape of the tree. Joining keeps it balanced; the pairwise build does so for some numbers of
chunks only. -/

namespace FactorForth.Editor

namespace Node

/-- At every branch the heights of the children differ by at most one. -/
def Balanced : Node → Prop
  | leaf _ _ => True
  | branch l r _ _ _ _ =>
    l.Balanced ∧ r.Balanced ∧ l.treeHeight ≤ r.treeHeight + 1 ∧ r.treeHeight ≤ l.treeHeight + 1

def Bounded (n : Node) : Prop := ∀ buf ∈ n.leaves, buf.length ≤ leafMax

def Filled (n : Node) : Prop := ∀ buf ∈ n.leaves, buf ≠ []

/-- Only a leaf that is the whole tree may be empty. -/
def NoEmptyBelow : Node → Prop
  | leaf _ _ => True
  | branch l r _ _ _ _ => l.Filled ∧ r.Filled

@[simp] theorem treeHeight_leaf (buf : List UInt32) (k : Nat) : (leaf buf k).treeHeight = 0 := rfl

@[simp] theorem treeHeight_branch (l r : Node) (a b c d : Nat) :
    (branch l r a b c d).treeHeight = 1 + max l.treeHeight r.treeHeight := rfl

@[simp] theorem treeHeight_join (l r : Node) :
    (join l r).treeHeight = 1 + max l.treeHeight r.treeHeight := rfl

theorem Exact.balanceFactor_join {l r : Node} (hl : l.Exact) (hr : r.Exact) :
    (Node.join l r).balanceFactor = (l.treeHeight : Int) - r.treeHeight := by
  show (l.cachedHeight : Int) - r.cachedHeight = _
  rw [hl.cachedHeight_eq, hr.cachedHeight_eq]

theorem Exact.balanceFactor_branch {l r : Node} {a b c d : Nat} (h : (branch l r a b c d).Exact) :
    (branch l r a b c d).balanceFactor = (l.treeHeight : Int) - r.treeHeight := by
  show (l.cachedHeight : Int) - r.cachedHeight = _
  rw [h.1.cachedHeight_eq, h.2.1.cachedHeight_eq]

/-- A left child that is higher by two is a branch; one rotation or two take the difference away. -/
theorem balance_left {l r m : Node} (hl : l.Exact) (hr : r.Exact) (hlb : l.Balanced)
    (hrb : r.Balanced) (hHigh : l.treeHeight = r.treeHeight + 2)
    (h : balance (join l r) = some m) :
    m.Balanced ∧ l.treeHeight ≤ m.treeHeight ∧ m.treeHeight ≤ l.treeHeight + 1 := by
  have hFactor := hl.balanceFactor_join hr
  unfold balance at h
  rw [if_pos (by omega)] at h
  obtain rfl := Option.some.inj h
  match l, hl, hlb, hHigh with
  | leaf _ _, _, _, hHigh => exact absurd hHigh (by simp only [treeHeight]; omega)
  | branch x y a b c d, hl, hlb, hHigh =>
    obtain ⟨hxb, hyb, hxy, hyx⟩ := hlb
    simp only [treeHeight] at hHigh
    have hInner := hl.balanceFactor_branch
    by_cases hZag : x.treeHeight < y.treeHeight
    · dsimp only
      rw [if_pos (by omega)]
      match y, hyb, hxy, hyx, hHigh, hZag with
      | leaf _ _, _, _, _, _, hZag => exact absurd hZag (by simp only [treeHeight]; omega)
      | branch p q _ _ _ _, hyb, hxy, hyx, hHigh, hZag =>
        obtain ⟨hpb, hqb, hpq, hqp⟩ := hyb
        simp only [treeHeight] at hxy hyx hHigh hZag
        simp only [rotateLeft, join, rotateRight, Balanced, treeHeight]
        exact ⟨⟨⟨hxb, hpb, by omega⟩, ⟨hqb, hrb, by omega⟩, by omega⟩, by omega⟩
    · dsimp only
      rw [if_neg (by omega)]
      simp only [join, rotateRight, Balanced, treeHeight]
      exact ⟨⟨hxb, ⟨hyb, hrb, by omega⟩, by omega⟩, by omega⟩

theorem balance_right {l r m : Node} (hl : l.Exact) (hr : r.Exact) (hlb : l.Balanced)
    (hrb : r.Balanced) (hHigh : r.treeHeight = l.treeHeight + 2)
    (h : balance (join l r) = some m) :
    m.Balanced ∧ r.treeHeight ≤ m.treeHeight ∧ m.treeHeight ≤ r.treeHeight + 1 := by
  have hFactor := hl.balanceFactor_join hr
  unfold balance at h
  rw [if_neg (by omega), if_pos (by omega)] at h
  obtain rfl := Option.some.inj h
  match r, hr, hrb, hHigh with
  | leaf _ _, _, _, hHigh => exact absurd hHigh (by simp only [treeHeight]; omega)
  | branch x y a b c d, hr, hrb, hHigh =>
    obtain ⟨hxb, hyb, hxy, hyx⟩ := hrb
    simp only [treeHeight] at hHigh
    have hInner := hr.balanceFactor_branch
    by_cases hZig : y.treeHeight < x.treeHeight
    · dsimp only
      rw [if_pos (by omega)]
      match x, hxb, hxy, hyx, hHigh, hZig with
      | leaf _ _, _, _, _, _, hZig => exact absurd hZig (by simp only [treeHeight]; omega)
      | branch p q _ _ _ _, hxb, hxy, hyx, hHigh, hZig =>
        obtain ⟨hpb, hqb, hpq, hqp⟩ := hxb
        simp only [treeHeight] at hxy hyx hHigh hZig
        simp only [rotateLeft, join, rotateRight, Balanced, treeHeight]
        exact ⟨⟨⟨hlb, hpb, by omega⟩, ⟨hqb, hyb, by omega⟩, by omega⟩, by omega⟩
    · dsimp only
      rw [if_neg (by omega)]
      simp only [join, rotateLeft, Balanced, treeHeight]
      exact ⟨⟨⟨hlb, hxb, by omega⟩, hyb, by omega⟩, by omega⟩

/-- Children whose heights differ by at most two are brought into balance. Where they differ by two
the result may be as high as the higher child, else it is by one higher. -/
theorem balance_balanced {l r m : Node} (hl : l.Exact) (hr : r.Exact) (hlb : l.Balanced)
    (hrb : r.Balanced) (hlr : l.treeHeight ≤ r.treeHeight + 2)
    (hrl : r.treeHeight ≤ l.treeHeight + 2) (h : balance (join l r) = some m) :
    m.Balanced ∧ max l.treeHeight r.treeHeight ≤ m.treeHeight ∧
      m.treeHeight ≤ max l.treeHeight r.treeHeight + 1 ∧
      (l.treeHeight ≤ r.treeHeight + 1 → r.treeHeight ≤ l.treeHeight + 1 →
        m.treeHeight = max l.treeHeight r.treeHeight + 1) := by
  by_cases hLeft : l.treeHeight = r.treeHeight + 2
  · obtain ⟨hb, hLow, hUp⟩ := balance_left hl hr hlb hrb hLeft h
    exact ⟨hb, by omega, by omega, by omega⟩
  by_cases hRight : r.treeHeight = l.treeHeight + 2
  · obtain ⟨hb, hLow, hUp⟩ := balance_right hl hr hlb hrb hRight h
    exact ⟨hb, by omega, by omega, by omega⟩
  · have hFactor := hl.balanceFactor_join hr
    unfold balance at h
    rw [if_neg (by omega), if_neg (by omega)] at h
    obtain rfl := Option.some.inj h
    rw [treeHeight_join]
    exact ⟨⟨hlb, hrb, by omega, by omega⟩, by omega, by omega, by omega⟩

/-- A tree under which a branch may be put; its leaves are such as `Q` says. -/
structure Firm (Q : List UInt32 → Prop) (n : Node) : Prop where
  exact : n.Exact
  balanced : n.Balanced
  each : ∀ buf ∈ n.leaves, Q buf
  filled : n.Filled

/-- A whole tree. -/
structure Proper (Q : List UInt32 → Prop) (n : Node) : Prop where
  exact : n.Exact
  balanced : n.Balanced
  each : ∀ buf ∈ n.leaves, Q buf
  noEmptyBelow : n.NoEmptyBelow

/-- What a whole tree is to be. -/
structure WellFormed (n : Node) : Prop where
  exact : n.Exact
  balanced : n.Balanced
  bounded : n.Bounded
  noEmptyBelow : n.NoEmptyBelow

theorem WellFormed.proper {n : Node} (h : n.WellFormed) : n.Proper (·.length ≤ leafMax) :=
  ⟨h.exact, h.balanced, h.bounded, h.noEmptyBelow⟩

theorem Proper.wellFormed {n : Node} (h : n.Proper (·.length ≤ leafMax)) : n.WellFormed :=
  ⟨h.exact, h.balanced, h.each, h.noEmptyBelow⟩

section Leaves
variable {Q : List UInt32 → Prop}

theorem each_append {l r n : Node} (hl : ∀ buf ∈ l.leaves, Q buf) (hr : ∀ buf ∈ r.leaves, Q buf)
    (h : n.leaves = l.leaves ++ r.leaves) : ∀ buf ∈ n.leaves, Q buf := by
  intro buf hb
  rw [h, List.mem_append] at hb
  exact hb.elim (hl buf) (hr buf)

theorem each_ofBuf {buf : List UInt32} (h : Q buf) : ∀ b ∈ (ofBuf buf).leaves, Q b := by
  intro b hb
  rw [leaves_ofBuf, List.mem_singleton] at hb
  rw [hb]
  exact h

theorem Firm.children {l r : Node} {a b c d : Nat} (h : (branch l r a b c d).Firm Q) :
    l.Firm Q ∧ r.Firm Q := by
  obtain ⟨hExact, hBalanced, hEach, hFilled⟩ := h
  constructor
  · exact ⟨hExact.1, hBalanced.1, fun buf hb => hEach buf (List.mem_append_left _ hb),
      fun buf hb => hFilled buf (List.mem_append_left _ hb)⟩
  · exact ⟨hExact.2.1, hBalanced.2.1, fun buf hb => hEach buf (List.mem_append_right _ hb),
      fun buf hb => hFilled buf (List.mem_append_right _ hb)⟩

theorem ofBuf_proper {buf : List UInt32} (h : Q buf) : (ofBuf buf).Proper Q :=
  ⟨ofBuf_exact buf, trivial, each_ofBuf h, trivial⟩

theorem ofBuf_firm {buf : List UInt32} (h : Q buf) (hNe : buf ≠ []) : (ofBuf buf).Firm Q :=
  ⟨ofBuf_exact buf, trivial, each_ofBuf h, @each_ofBuf (· ≠ []) buf hNe⟩

theorem Filled.text_ne_nil {n : Node} (h : n.Filled) : n.text ≠ [] := by
  induction n with
  | leaf buf k => simpa using h buf (by simp [leaves])
  | branch l r a b c d ihl _ =>
    rw [text_branch]
    have hLeft := ihl fun buf hb => h buf (List.mem_append_left _ hb)
    simp [hLeft]

theorem Firm.textLen_ne_zero {n : Node} (h : n.Firm Q) : n.textLen ≠ 0 := by
  rw [h.exact.textLen_eq]
  exact fun hZero => h.filled.text_ne_nil (List.length_eq_zero_iff.mp hZero)

theorem Firm.proper {n : Node} (h : n.Firm Q) : n.Proper Q := by
  refine ⟨h.exact, h.balanced, h.each, ?_⟩
  match n, h with
  | leaf _ _, _ => trivial
  | branch _ _ _ _ _ _, h => exact ⟨h.children.1.filled, h.children.2.filled⟩

theorem Proper.firm {n : Node} (h : n.Proper Q) (hNe : n.textLen ≠ 0) : n.Firm Q := by
  refine ⟨h.exact, h.balanced, h.each, ?_⟩
  match n, h, hNe with
  | leaf buf k, _, hNe =>
    intro b hb
    have hEq : b = buf := by simpa [leaves] using hb
    rw [hEq]
    exact fun hNil => hNe (by simp [textLen, hNil])
  | branch l r _ _ _ _, h, _ => exact each_append h.noEmptyBelow.1 h.noEmptyBelow.2 rfl

/-- Below the root no leaf is empty, so a child may stand alone. -/
theorem Proper.children {l r : Node} {a b c d : Nat} (h : (branch l r a b c d).Proper Q) :
    l.Firm Q ∧ r.Firm Q := by
  obtain ⟨hExact, hBalanced, hEach, hLeft, hRight⟩ := h
  constructor
  · exact ⟨hExact.1, hBalanced.1, fun buf hb => hEach buf (List.mem_append_left _ hb), hLeft⟩
  · exact ⟨hExact.2.1, hBalanced.2.1, fun buf hb => hEach buf (List.mem_append_right _ hb), hRight⟩

/-- A tree without text is one empty leaf. -/
theorem Proper.height_of_empty {n : Node} (h : n.Proper Q) (hEmpty : n.textLen = 0) :
    n.treeHeight = 0 := by
  match n, h, hEmpty with
  | leaf _ _, _, _ => rfl
  | branch l r _ _ _ _, h, hEmpty =>
    have hText := h.exact.text_eq_nil hEmpty
    rw [text_branch] at hText
    exact absurd (List.append_eq_nil_iff.mp hText).1 h.noEmptyBelow.1.text_ne_nil

end Leaves

end Node

open Node

section Joining
variable {Q : List UInt32 → Prop} (hMerge : ∀ a b : List UInt32, a.length + b.length ≤ leafMax → Q (a ++ b))
include hMerge

theorem mergedLeaf_firm {l r m : Node} (hl : l.Firm Q) (h : mergedLeaf l r = some m) :
    m.Firm Q ∧ m.treeHeight = 0 ∧ l.treeHeight = 0 ∧ r.treeHeight = 0 := by
  unfold mergedLeaf at h
  split at h
  · rename_i lbuf _ rbuf _
    split at h
    · rename_i hFits
      obtain rfl := Option.some.inj h
      have hNe : lbuf ≠ [] := hl.filled lbuf (by simp [leaves])
      exact ⟨ofBuf_firm (hMerge _ _ hFits) (by simp [hNe]), rfl, rfl, rfl⟩
    · cases h
  · cases h

/-- The joined tree is as high as the higher of the two, or by one higher. -/
structure JoinedHeight (l r n : Node) : Prop where
  low : max l.treeHeight r.treeHeight ≤ n.treeHeight
  high : n.treeHeight ≤ max l.treeHeight r.treeHeight + 1

omit hMerge in
theorem balance_firm {l r n : Node} (hl : l.Firm Q) (hr : r.Firm Q)
    (hlr : l.treeHeight ≤ r.treeHeight + 2) (hrl : r.treeHeight ≤ l.treeHeight + 2)
    (h : balance (join l r) = some n) : n.Firm Q ∧ JoinedHeight l r n ∧
      (l.treeHeight ≤ r.treeHeight + 1 → r.treeHeight ≤ l.treeHeight + 1 →
        n.treeHeight = max l.treeHeight r.treeHeight + 1) := by
  obtain ⟨m, hm, hExact, hLeaves⟩ := balance_some (hl.exact.join hr.exact)
  obtain rfl : m = n := Option.some.inj (hm.symm.trans h)
  obtain ⟨hBalanced, hLow, hHigh, hClose⟩ :=
    balance_balanced hl.exact hr.exact hl.balanced hr.balanced hlr hrl h
  rw [leaves_join] at hLeaves
  exact ⟨⟨hExact, hBalanced, each_append hl.each hr.each hLeaves,
    each_append hl.filled hr.filled hLeaves⟩, ⟨hLow, hHigh⟩, hClose⟩

/-- The descent into the higher side grafts a tree that is at most by one higher than the child it
replaces, so `balance` is met with a difference of at most two. -/
theorem joinNodes_firm (l r : Node) {n : Node} (hl : l.Firm Q) (hr : r.Firm Q)
    (h : joinNodes l r = some n) : n.Firm Q ∧ JoinedHeight l r n := by
  induction l, r using joinNodes.induct generalizing n with
  | case1 l r hEmpty => exact absurd hEmpty hl.textLen_ne_zero
  | case2 l r _ hEmpty => exact absurd hEmpty hr.textLen_ne_zero
  | case3 l r hNeL hNeR m hMerged =>
    rw [joinNodes.eq_def, if_neg hNeL, if_neg hNeR, hMerged] at h
    obtain rfl := Option.some.inj h
    obtain ⟨hSound, hm, hlz, hrz⟩ := mergedLeaf_firm hMerge hl hMerged
    exact ⟨hSound, by omega, by omega⟩
  -- near enough in height: one branch above both
  | case4 l r hNeL hNeR hMerged hClose =>
    rw [joinNodes.eq_def, if_neg hNeL, if_neg hNeR, hMerged] at h
    dsimp only at h
    rw [if_pos hClose] at h
    rw [hl.exact.cachedHeight_eq, hr.exact.cachedHeight_eq] at hClose
    obtain rfl := Option.some.inj h
    refine ⟨⟨hl.exact.join hr.exact, ⟨hl.balanced, hr.balanced, hClose⟩,
      each_append hl.each hr.each rfl, each_append hl.filled hr.filled rfl⟩, ?_, ?_⟩
    · rw [treeHeight_join]
      omega
    · rw [treeHeight_join]
      omega
  | case5 r _ buf k _ _ _ hTaller => exact absurd hTaller (by simp [cachedHeight])
  | case6 r hNeR ll lr a b c d hNeL hMerged hFar hTaller ih =>
    rw [joinNodes.eq_def, if_neg hNeL, if_neg hNeR, hMerged] at h
    dsimp only at h
    rw [if_neg hFar, if_pos hTaller] at h
    obtain ⟨hll, hlr⟩ := hl.children
    obtain ⟨_, _, hNear, hNear'⟩ := hl.balanced
    obtain ⟨right, hRight, hBalance⟩ := Option.bind_eq_some_iff.mp h
    obtain ⟨hSound, hLow, hHigh⟩ := ih hlr hr hRight
    rw [hl.exact.cachedHeight_eq, hr.exact.cachedHeight_eq, treeHeight_branch] at hFar hTaller
    -- the graft is at most one above `lr`, which is at most one from `ll`
    obtain ⟨hn, ⟨hLow', hHigh'⟩, hClose⟩ := balance_firm hll hSound (by omega) (by omega) hBalance
    refine ⟨hn, ?_, ?_⟩
    · rw [treeHeight_branch]
      omega
    · rw [treeHeight_branch]
      omega
  | case7 l _ buf k _ _ hFar hNotTaller =>
    rw [cachedHeight] at hFar hNotTaller
    omega
  | case8 l hNeL rl rr a b c d hNeR hMerged hFar hNotTaller ih =>
    rw [joinNodes.eq_def, if_neg hNeL, if_neg hNeR, hMerged] at h
    dsimp only at h
    rw [if_neg hFar, if_neg hNotTaller] at h
    obtain ⟨hrl, hrr⟩ := hr.children
    obtain ⟨_, _, hNear, hNear'⟩ := hr.balanced
    obtain ⟨left, hLeft, hBalance⟩ := Option.bind_eq_some_iff.mp h
    obtain ⟨hSound, hLow, hHigh⟩ := ih hl hrl hLeft
    rw [hl.exact.cachedHeight_eq, hr.exact.cachedHeight_eq, treeHeight_branch] at hFar hNotTaller
    obtain ⟨hn, ⟨hLow', hHigh'⟩, hClose⟩ := balance_firm hSound hrr (by omega) (by omega) hBalance
    refine ⟨hn, ?_, ?_⟩
    · rw [treeHeight_branch]
      omega
    · rw [treeHeight_branch]
      omega

theorem joinNodes_proper {l r n : Node} (hl : l.Proper Q) (hr : r.Proper Q)
    (h : joinNodes l r = some n) : n.Proper Q ∧ JoinedHeight l r n := by
  by_cases hEmptyL : l.textLen = 0
  · have hLow := hl.height_of_empty hEmptyL
    rw [joinNodes.eq_def, if_pos hEmptyL] at h
    obtain rfl := Option.some.inj h
    exact ⟨hr, by omega, by omega⟩
  by_cases hEmptyR : r.textLen = 0
  · have hLow := hr.height_of_empty hEmptyR
    rw [joinNodes.eq_def, if_neg hEmptyL, if_pos hEmptyR] at h
    obtain rfl := Option.some.inj h
    exact ⟨hl, by omega, by omega⟩
  obtain ⟨hn, hHeight⟩ := joinNodes_firm hMerge l r (hl.firm hEmptyL) (hr.firm hEmptyR) h
  exact ⟨hn.proper, hHeight⟩

theorem splitNode_proper (hEmpty : Q []) (hPart : ∀ a b : List UInt32, Q (a ++ b) → Q a ∧ Q b) (n : Node)
    (pos : Nat) {l r : Node} (hn : n.Proper Q) (h : splitNode n pos = some (l, r)) :
    l.Proper Q ∧ r.Proper Q := by
  induction n generalizing pos l r with
  | leaf buf k =>
    rw [splitNode] at h
    split at h
    · obtain ⟨rfl, rfl⟩ := Prod.mk.inj (Option.some.inj h)
      exact ⟨ofBuf_proper hEmpty, hn⟩
    split at h
    · obtain ⟨rfl, rfl⟩ := Prod.mk.inj (Option.some.inj h)
      exact ⟨hn, ofBuf_proper hEmpty⟩
    split at h
    · obtain ⟨rfl, rfl⟩ := Prod.mk.inj (Option.some.inj h)
      have hBuf : Q (buf.take pos ++ buf.drop pos) := by
        rw [List.take_append_drop]
        exact hn.each buf (by simp [leaves])
      exact ⟨ofBuf_proper (hPart _ _ hBuf).1, ofBuf_proper (hPart _ _ hBuf).2⟩
    · cases h
  | branch left right leftLen b c d ihLeft ihRight =>
    rw [splitNode] at h
    split at h
    · obtain ⟨rfl, rfl⟩ := Prod.mk.inj (Option.some.inj h)
      exact ⟨ofBuf_proper hEmpty, hn⟩
    split at h
    · obtain ⟨rfl, rfl⟩ := Prod.mk.inj (Option.some.inj h)
      exact ⟨hn, ofBuf_proper hEmpty⟩
    have hLeft := hn.children.1.proper
    have hRight := hn.children.2.proper
    dsimp only at h
    split at h
    · obtain ⟨rfl, rfl⟩ := Prod.mk.inj (Option.some.inj h)
      exact ⟨hLeft, hRight⟩
    split at h
    · obtain ⟨⟨ll, lr⟩, hSplit, h⟩ := Option.bind_eq_some_iff.mp h
      obtain ⟨joined, hJoin, h⟩ := Option.bind_eq_some_iff.mp h
      obtain ⟨rfl, rfl⟩ := Prod.mk.inj (Option.some.inj h)
      obtain ⟨hll, hlr⟩ := ihLeft pos hLeft hSplit
      exact ⟨hll, (joinNodes_proper hMerge hlr hRight hJoin).1⟩
    · obtain ⟨⟨rl, rr⟩, hSplit, h⟩ := Option.bind_eq_some_iff.mp h
      obtain ⟨joined, hJoin, h⟩ := Option.bind_eq_some_iff.mp h
      obtain ⟨rfl, rfl⟩ := Prod.mk.inj (Option.some.inj h)
      obtain ⟨hrl, hrr⟩ := ihRight (pos - leftLen) hRight hSplit
      exact ⟨(joinNodes_proper hMerge hLeft hrl hJoin).1, hrr⟩

end Joining

theorem merge_bounded (a b : List UInt32) (h : a.length + b.length ≤ leafMax) :
    (a ++ b).length ≤ leafMax := by
  rw [List.length_append]
  exact h

theorem part_bounded (a b : List UInt32) (h : (a ++ b).length ≤ leafMax) :
    a.length ≤ leafMax ∧ b.length ≤ leafMax := by
  rw [List.length_append] at h
  constructor <;> omega

theorem ofBuf_wellFormed {buf : List UInt32} (h : buf.length ≤ leafMax) : (ofBuf buf).WellFormed :=
  (ofBuf_proper h).wellFormed

theorem emptyLeaf_wellFormed : emptyLeaf.WellFormed := ofBuf_wellFormed (Nat.zero_le _)

theorem joinNodes_wellFormed {l r n : Node} (hl : l.WellFormed) (hr : r.WellFormed)
    (h : joinNodes l r = some n) : n.WellFormed :=
  (joinNodes_proper merge_bounded hl.proper hr.proper h).1.wellFormed

theorem splitNode_wellFormed (n : Node) (pos : Nat) {l r : Node} (hn : n.WellFormed)
    (h : splitNode n pos = some (l, r)) : l.WellFormed ∧ r.WellFormed := by
  obtain ⟨hl, hr⟩ := splitNode_proper merge_bounded (Nat.zero_le _) part_bounded n pos hn.proper h
  exact ⟨hl.wellFormed, hr.wellFormed⟩

/-- An AVL tree with exact metrics, its leaves of any length; only a leaf that is the whole tree may be
empty. -/
def Avl (n : Node) : Prop := n.Exact ∧ n.Balanced ∧ n.NoEmptyBelow

theorem Avl.proper {n : Node} (h : Avl n) : n.Proper fun _ => True :=
  ⟨h.1, h.2.1, fun _ _ => trivial, h.2.2⟩

theorem avl_of_proper {Q : List UInt32 → Prop} {n : Node} (h : n.Proper Q) : Avl n :=
  ⟨h.exact, h.balanced, h.noEmptyBelow⟩

theorem joinNodes_avl {l r : Node} (hl : Avl l) (hr : Avl r) :
    ∃ n, joinNodes l r = some n ∧ Avl n ∧ n.text = l.text ++ r.text ∧
      (n.treeHeight = max l.treeHeight r.treeHeight ∨
        n.treeHeight = max l.treeHeight r.treeHeight + 1) := by
  obtain ⟨n, hn, hText⟩ := joinNodes_holds l r ⟨hl.1, rfl⟩ ⟨hr.1, rfl⟩
  obtain ⟨hProper, hLow, hHigh⟩ := joinNodes_proper (fun _ _ _ => trivial) hl.proper hr.proper hn
  exact ⟨n, hn, avl_of_proper hProper, hText.text, by omega⟩

theorem splitNode_avl {n : Node} (hn : Avl n) (pos : Nat) :
    ∃ l r, splitNode n pos = some (l, r) ∧ (Avl l ∧ l.text = n.text.take pos) ∧
      Avl r ∧ r.text = n.text.drop pos := by
  obtain ⟨l, r, hSplit, hLeft, hRight⟩ := splitNode_holds n pos ⟨hn.1, rfl⟩
  obtain ⟨hl, hr⟩ := splitNode_proper (fun _ _ _ => trivial) trivial (fun _ _ _ => ⟨trivial, trivial⟩)
    n pos hn.proper hSplit
  exact ⟨l, r, hSplit, ⟨avl_of_proper hl, hLeft.text⟩, avl_of_proper hr, hRight.text⟩

/-- Joining and splitting keep AVL trees, whatever the heights and the position. -/
theorem join_and_split_avl {l r : Node} (hl : Avl l) (hr : Avl r) :
    (∃ n, joinNodes l r = some n ∧ Avl n ∧ n.text = l.text ++ r.text ∧
      (n.treeHeight = max l.treeHeight r.treeHeight ∨
        n.treeHeight = max l.treeHeight r.treeHeight + 1)) ∧
    ∀ pos, ∃ a b, splitNode l pos = some (a, b) ∧ (Avl a ∧ a.text = l.text.take pos) ∧
      Avl b ∧ b.text = l.text.drop pos :=
  ⟨joinNodes_avl hl hr, splitNode_avl hl⟩

theorem join_and_split_avl_chain :
    ∃ n, joinNodes (Node.join (Node.join (ofBuf [65]) (ofBuf [66])) (ofBuf [67])) (ofBuf [68]) = some n ∧
      Avl n := by
  obtain ⟨⟨n, hn, hAvl, _⟩, _⟩ := @join_and_split_avl
    (Node.join (Node.join (ofBuf [65]) (ofBuf [66])) (ofBuf [67])) (ofBuf [68])
    ⟨((ofBuf_exact _).join (ofBuf_exact _)).join (ofBuf_exact _), by simp [Node.join, Node.Balanced, ofBuf],
      by simp [Node.join, NoEmptyBelow, Filled, leaves, ofBuf]⟩
    ⟨ofBuf_exact _, trivial, trivial⟩
  exact ⟨n, hn, hAvl⟩

/-- Two empty leaves under a branch: the branch has no text, so it is dropped with its height. -/
theorem join_drops_height :
    ¬ ∀ l r : Node, l.Exact → l.Balanced → r.Exact → r.Balanced →
      ∃ n, joinNodes l r = some n ∧ (n.treeHeight = max l.treeHeight r.treeHeight ∨
        n.treeHeight = max l.treeHeight r.treeHeight + 1) := by
  intro h
  obtain ⟨n, hn, hHeight⟩ := h (Node.join emptyLeaf emptyLeaf) (ofBuf [65])
    ((ofBuf_exact _).join (ofBuf_exact _)) ⟨trivial, trivial, by decide, by decide⟩ (ofBuf_exact _) trivial
  have hEmpty : (Node.join emptyLeaf emptyLeaf).textLen = 0 := rfl
  have hRight : joinNodes (Node.join emptyLeaf emptyLeaf) (ofBuf [65]) = some (ofBuf [65]) := by
    rw [joinNodes.eq_def, if_pos hEmpty]
  obtain rfl : ofBuf [65] = n := Option.some.inj (hRight.symm.trans hn)
  exact absurd hHeight (by decide)

theorem insertNode_wellFormed {root insertion n : Node} {pos : Nat} (hRoot : root.WellFormed)
    (hInsertion : insertion.WellFormed) (h : insertNode root pos insertion = some n) :
    n.WellFormed := by
  obtain ⟨⟨l, r⟩, hSplit, h⟩ := Option.bind_eq_some_iff.mp h
  obtain ⟨left, hLeft, h⟩ := Option.bind_eq_some_iff.mp h
  obtain ⟨hl, hr⟩ := splitNode_wellFormed root pos hRoot hSplit
  exact joinNodes_wellFormed (joinNodes_wellFormed hl hInsertion hLeft) hr h

theorem deleteRange_wellFormed {root n : Node} {pos count : Nat} (hRoot : root.WellFormed)
    (h : deleteRange root pos count = some n) : n.WellFormed := by
  obtain ⟨⟨before, rest⟩, hFirst, h⟩ := Option.bind_eq_some_iff.mp h
  obtain ⟨⟨gone, after⟩, hSecond, h⟩ := Option.bind_eq_some_iff.mp h
  obtain ⟨hBefore, hRest⟩ := splitNode_wellFormed root pos hRoot hFirst
  exact joinNodes_wellFormed hBefore (splitNode_wellFormed rest count hRest hSecond).2 h

/-! The pairwise build. After some rounds all nodes but the last are full trees of one height, and the
last may be lower. -/

/-- Written in binary, `m` has no two neighbouring zeros. -/
def NoDoubleZero (m : Nat) : Prop := ∀ k, m / 2 ^ k % 4 = 0 → m / 2 ^ k = 0

theorem noDoubleZero_zero : NoDoubleZero 0 := by
  intro k _
  exact Nat.zero_div _

theorem noDoubleZero_step {m : Nat} :
    NoDoubleZero m ↔ (m % 4 = 0 → m = 0) ∧ NoDoubleZero (m / 2) := by
  have hShift : ∀ k, m / 2 / 2 ^ k = m / 2 ^ (k + 1) := by
    intro k
    rw [Nat.div_div_eq_div_mul, Nat.pow_succ']
  constructor
  · intro h
    refine ⟨by simpa using h 0, fun k => ?_⟩
    rw [hShift]
    exact h (k + 1)
  · intro ⟨hLow, hRest⟩ k
    match k with
    | 0 => simpa using hLow
    | k + 1 =>
      rw [← hShift]
      exact hRest k

theorem noDoubleZero_odd {m gap : Nat} (h : m % 2 = 1) :
    NoDoubleZero (m * 2 ^ gap) ↔ gap ≤ 1 ∧ NoDoubleZero (m / 2) := by
  match gap with
  | 0 =>
    rw [Nat.pow_zero, Nat.mul_one, noDoubleZero_step]
    exact ⟨fun ⟨_, hRest⟩ => ⟨by omega, hRest⟩, fun ⟨_, hRest⟩ => ⟨by omega, hRest⟩⟩
  | 1 =>
    rw [noDoubleZero_step, Nat.pow_one, Nat.mul_div_cancel _ (by omega), noDoubleZero_step]
    exact ⟨fun ⟨_, _, hRest⟩ => ⟨by omega, hRest⟩,
      fun ⟨_, hRest⟩ => ⟨by omega, by omega, hRest⟩⟩
  | gap + 2 =>
    have hFour : m * 2 ^ (gap + 2) = 4 * (m * 2 ^ gap) := by
      rw [Nat.pow_add]
      ring
    have hPos : 0 < m * 2 ^ gap := Nat.mul_pos (by omega) (Nat.two_pow_pos gap)
    constructor
    · intro hNo
      have hZero := (noDoubleZero_step.mp hNo).1 (by omega)
      omega
    · intro ⟨hGap, _⟩
      omega

/-- Full trees of height `full`, and a last tree of height `low`. -/
inductive Row (full low : Nat) : List Node → Prop
  | last {n : Node} : n.Balanced → n.treeHeight = low → Row full low [n]
  | cons {n : Node} {rest : List Node} : n.Balanced → n.treeHeight = full → Row full low rest →
    Row full low (n :: rest)

theorem Row.join {full : Nat} {l r : Node} (hl : l.Balanced) (hr : r.Balanced)
    (hlh : l.treeHeight = full) (hrh : r.treeHeight = full) :
    (Node.join l r).Balanced ∧ (Node.join l r).treeHeight = full + 1 := by
  refine ⟨⟨hl, hr, by omega, by omega⟩, ?_⟩
  rw [treeHeight_join]
  omega

/-- In an odd row the last tree goes up as it is. -/
theorem mergePairs_odd {full low : Nat} {nodes : List Node} (hRow : Row full low nodes)
    (hOdd : nodes.length % 2 = 1) : Row (full + 1) low (mergePairs nodes) := by
  induction nodes using mergePairs.induct with
  | case1 l r rest ih =>
    cases hRow with
    | cons hb hh hMore =>
      cases hMore with
      | last => simp at hOdd
      | cons hb' hh' hRest =>
        simp only [List.length_cons] at hOdd
        obtain ⟨hJoin, hHeight⟩ := Row.join hb hb' hh hh'
        exact .cons hJoin hHeight (ih hRest (by omega))
  | case2 n =>
    cases hRow with
    | last hb hh => exact .last hb hh
    | cons _ _ hNone => cases hNone
  | case3 => cases hRow

/-- In an even row the last tree is joined with a full one. -/
theorem mergePairs_even {full low : Nat} (hLow : low ≤ full) (hGap : full ≤ low + 1) {nodes : List Node}
    (hRow : Row full low nodes) (hEven : nodes.length % 2 = 0) :
    Row (full + 1) (full + 1) (mergePairs nodes) := by
  induction nodes using mergePairs.induct with
  | case1 l r rest ih =>
    cases hRow with
    | cons hb hh hMore =>
      cases hMore with
      | last hb' hh' =>
        refine .last ⟨hb, hb', by omega, by omega⟩ ?_
        rw [treeHeight_join]
        omega
      | cons hb' hh' hRest =>
        simp only [List.length_cons] at hEven
        obtain ⟨hJoin, hHeight⟩ := Row.join hb hb' hh hh'
        exact .cons hJoin hHeight (ih hRest (by omega))
  | case2 n => simp at hEven
  | case3 => cases hRow

/-- A last tree that is too low spoils the branch it comes under. -/
theorem mergePairs_gap {full low : Nat} (hGap : low + 1 < full) {nodes : List Node}
    (hRow : Row full low nodes) (hEven : nodes.length % 2 = 0) :
    ∃ n ∈ mergePairs nodes, ¬ n.Balanced := by
  induction nodes using mergePairs.induct with
  | case1 l r rest ih =>
    cases hRow with
    | cons hb hh hMore =>
      cases hMore with
      | last hb' hh' =>
        refine ⟨_, List.mem_cons_self, ?_⟩
        rintro ⟨-, -, hNear, -⟩
        omega
      | cons hb' hh' hRest =>
        simp only [List.length_cons] at hEven
        obtain ⟨n, hn, hBad⟩ := ih hRest (by omega)
        exact ⟨n, List.mem_cons_of_mem _ hn, hBad⟩
  | case2 n => simp at hEven
  | case3 => cases hRow

theorem mergePairs_balanced_of : ∀ {nodes : List Node}, (∀ n ∈ mergePairs nodes, n.Balanced) →
    ∀ n ∈ nodes, n.Balanced
  | [], _ => by simp
  | [_], h => h
  | l :: r :: rest, h => by
    intro n hn
    have hJoin : (Node.join l r).Balanced := h _ List.mem_cons_self
    have hRest := mergePairs_balanced_of fun n hn => h n (List.mem_cons_of_mem _ hn)
    rcases List.mem_cons.mp hn with hEq | hn
    · rw [hEq]
      exact hJoin.1
    rcases List.mem_cons.mp hn with hEq | hn
    · rw [hEq]
      exact hJoin.2.1
    · exact hRest n hn

/-- Every tree of the row is a part of the root. -/
theorem mergeAll_balanced_of (nodes : List Node) {root : Node} (h : mergeAll nodes = some root)
    (hRoot : root.Balanced) : ∀ n ∈ nodes, n.Balanced := by
  induction nodes using mergeAll.induct with
  | case1 =>
    rw [mergeAll.eq_def] at h
    exact absurd h (by simp)
  | case2 n =>
    rw [mergeAll.eq_def] at h
    obtain rfl := Option.some.inj h
    intro m hm
    rw [List.mem_singleton.mp hm]
    exact hRoot
  | case3 l r rest ih =>
    rw [mergeAll.eq_def] at h
    exact mergePairs_balanced_of (ih h)

/-- The gap of the last tree counts as zeros behind the number of trees before it. -/
theorem mergeAll_balanced (nodes : List Node) {full low : Nat} {root : Node}
    (hRow : Row full low nodes) (hLow : low ≤ full) (h : mergeAll nodes = some root) :
    root.Balanced ↔ NoDoubleZero ((nodes.length - 1) * 2 ^ (full - low)) := by
  induction nodes using mergeAll.induct generalizing full low with
  | case1 => cases hRow
  | case2 n =>
    rw [mergeAll.eq_def] at h
    obtain rfl := Option.some.inj h
    have hn : n.Balanced := by
      cases hRow with
      | last hb _ => exact hb
      | cons hb _ _ => exact hb
    simp [hn, noDoubleZero_zero]
  | case3 l r rest ih =>
    rw [mergeAll.eq_def] at h
    have hNext : (mergePairs (l :: r :: rest)).length - 1 = ((l :: r :: rest).length - 1) / 2 := by
      rw [mergePairs_length]
      omega
    -- an odd row keeps its last tree, which falls one behind the doubled others
    by_cases hOdd : (l :: r :: rest).length % 2 = 1
    · have hRow' := mergePairs_odd hRow hOdd
      have hTwice : (l :: r :: rest).length - 1 = ((l :: r :: rest).length - 1) / 2 * 2 := by
        omega
      have hShift : full + 1 - low = full - low + 1 := by omega
      rw [ih hRow' (by omega) h, hNext, hShift, Nat.pow_succ', ← Nat.mul_assoc, ← hTwice]
    · have hEven : (l :: r :: rest).length % 2 = 0 := by omega
      have hBefore : ((l :: r :: rest).length - 1) % 2 = 1 := by
        simp only [List.length_cons] at hEven ⊢
        omega
      rw [noDoubleZero_odd hBefore]
      -- an even row merges it with the tree before, which balances up to a gap of one
      by_cases hGap : full ≤ low + 1
      · have hRow' := mergePairs_even hLow hGap hRow hEven
        rw [ih hRow' (Nat.le_refl _) h, hNext, Nat.sub_self, Nat.pow_zero, Nat.mul_one]
        exact ⟨fun hNo => ⟨by omega, hNo⟩, fun hNo => hNo.2⟩
      · obtain ⟨n, hn, hBad⟩ := mergePairs_gap (by omega) hRow hEven
        constructor
        · intro hRoot
          exact absurd (mergeAll_balanced_of _ h hRoot n hn) hBad
        · intro ⟨hClose, _⟩
          omega

theorem row_of_leaves : ∀ {bufs : List (List UInt32)}, bufs ≠ [] →
    Row 0 0 (bufs.map Node.ofBuf)
  | [], h => absurd rfl h
  | [_], _ => .last trivial rfl
  | _ :: buf :: bufs, _ => .cons trivial rfl (row_of_leaves (List.cons_ne_nil buf bufs))

theorem mergePairs_leaves : ∀ nodes : List Node,
    (mergePairs nodes).flatMap Node.leaves = nodes.flatMap Node.leaves
  | [] => rfl
  | [_] => rfl
  | l :: r :: rest => by simp [mergePairs, mergePairs_leaves rest]

theorem mergeAll_leaves (nodes : List Node) {root : Node} (h : mergeAll nodes = some root) :
    root.leaves = nodes.flatMap Node.leaves := by
  induction nodes using mergeAll.induct with
  | case1 =>
    rw [mergeAll.eq_def] at h
    exact absurd h (by simp)
  | case2 n =>
    rw [mergeAll.eq_def] at h
    obtain rfl := Option.some.inj h
    simp
  | case3 l r rest ih =>
    rw [mergeAll.eq_def] at h
    rw [ih h, mergePairs_leaves]

/-- The text is cut into a number of chunks that the pairwise build can balance. -/
def BuildsEven (text : List UInt32) : Prop := NoDoubleZero (chunkCount text.length - 1)

theorem chunkText_bounds {text : List UInt32} {i : Nat} (h : i < chunkCount text.length) :
    (chunkText text i).length ≤ leafMax ∧ chunkText text i ≠ [] := by
  have hLen : (chunkText text i).length = min leafMax (text.length - i * leafMax) := by
    rw [chunkText, List.length_take, List.length_drop]
  refine ⟨by omega, fun hNil => ?_⟩
  rw [hNil] at hLen
  simp only [chunkCount, leafMax, List.length_nil] at h hLen
  omega

/-- A built tree lacks nothing but, for some lengths, balance. -/
theorem buildRopeFromSlice_shape {text : List UInt32} {root : Node}
    (h : buildRopeFromSlice text = some root) :
    (root.Balanced ↔ BuildsEven text) ∧ root.Bounded ∧ root.NoEmptyBelow := by
  unfold buildRopeFromSlice at h
  split at h
  · rename_i hEmpty
    obtain rfl := Option.some.inj h
    have hEven : BuildsEven text := by
      rw [List.isEmpty_iff.mp hEmpty]
      exact noDoubleZero_zero
    obtain ⟨_, hBalanced, hBounded, hBelow⟩ := emptyLeaf_wellFormed
    exact ⟨⟨fun _ => hEven, fun _ => hBalanced⟩, hBounded, hBelow⟩
  split at h
  · rename_i hOne
    obtain rfl := Option.some.inj h
    have hEven : BuildsEven text := by
      unfold BuildsEven
      rw [hOne]
      exact noDoubleZero_zero
    have hLen : text.length ≤ leafMax := by
      simp only [chunkCount, leafMax] at *
      omega
    obtain ⟨_, hBalanced, hBounded, hBelow⟩ := ofBuf_wellFormed hLen
    exact ⟨⟨fun _ => hEven, fun _ => hBalanced⟩, hBounded, hBelow⟩
  · rename_i hNe _
    have hPos : 0 < text.length := List.length_pos_iff.mpr (by simpa using hNe)
    have hCount : chunkCount text.length ≠ 0 := by
      simp only [chunkCount, leafMax]
      omega
    rw [chunks_eq (Nat.le_refl _), Option.bind_some] at h
    have hMap : ((List.range (chunkCount text.length)).map fun i => Node.ofBuf (chunkText text i)) =
        ((List.range (chunkCount text.length)).map (chunkText text)).map Node.ofBuf := by
      rw [List.map_map]
      rfl
    rw [hMap] at h
    have hRow := @row_of_leaves ((List.range (chunkCount text.length)).map (chunkText text))
      (by simpa using hCount)
    have hBalanced := mergeAll_balanced _ hRow (Nat.le_refl _) h
    have hLeaves := mergeAll_leaves _ h
    -- the leaves are the chunks, whatever the merging does
    have hEach : ∀ buf ∈ root.leaves, buf.length ≤ leafMax ∧ buf ≠ [] := by
      intro buf hb
      rw [hLeaves] at hb
      simp only [List.mem_flatMap, List.mem_map, List.mem_range] at hb
      obtain ⟨_, ⟨_, ⟨i, hi, rfl⟩, rfl⟩, hb⟩ := hb
      rw [leaves_ofBuf, List.mem_singleton] at hb
      rw [hb]
      exact chunkText_bounds hi
    refine ⟨by simpa [BuildsEven] using hBalanced, fun buf hb => (hEach buf hb).1, ?_⟩
    cases root with
    | leaf _ _ => trivial
    | branch l r _ _ _ _ =>
      exact ⟨fun buf hb => (hEach buf (List.mem_append_left _ hb)).2,
        fun buf hb => (hEach buf (List.mem_append_right _ hb)).2⟩

theorem buildRopeFromSlice_wellFormed {text : List UInt32} {root : Node}
    (h : buildRopeFromSlice text = some root) : root.WellFormed ↔ BuildsEven text := by
  obtain ⟨hBalanced, hBounded, hBelow⟩ := buildRopeFromSlice_shape h
  obtain ⟨n, hn, hHolds⟩ := buildRopeFromSlice_holds text
  obtain rfl : n = root := Option.some.inj (hn.symm.trans h)
  exact ⟨fun hRoot => hBalanced.mp hRoot.balanced,
    fun hEven => ⟨hHolds.exact, hBalanced.mpr hEven, hBounded, hBelow⟩⟩

namespace RopeBuffer

def WellFormed (r : RopeBuffer) : Prop := r.root.WellFormed

variable {r r' : RopeBuffer}

theorem insert_wellFormed {pos : Nat} {text : List UInt32} (hr : r.WellFormed)
    (hText : BuildsEven text) (h : r.insert pos text = some r') : r'.WellFormed := by
  unfold insert at h
  split at h
  · exact Option.some.inj h ▸ hr
  · obtain ⟨insertion, hBuild, h⟩ := Option.bind_eq_some_iff.mp h
    obtain ⟨n, hn, rfl⟩ := Option.map_eq_some_iff.mp h
    exact insertNode_wellFormed hr ((buildRopeFromSlice_wellFormed hBuild).mpr hText) hn

theorem delete_wellFormed {pos count : Nat} (hr : r.WellFormed)
    (h : r.delete pos count = some r') : r'.WellFormed := by
  unfold delete at h
  split at h
  · exact Option.some.inj h ▸ hr
  · obtain ⟨n, hn, rfl⟩ := Option.map_eq_some_iff.mp h
    exact deleteRange_wellFormed hr hn

end RopeBuffer

/-- The texts an edit puts in. -/
def Edit.inserted : Edit → List (List UInt32)
  | .insert _ text => [text]
  | .delete _ _ => []
  | .replace _ _ text => [text]

theorem Edit.apply_wellFormed {r r' : RopeBuffer} (e : Edit) (hr : r.WellFormed)
    (hTexts : ∀ text ∈ e.inserted, BuildsEven text) (h : e.apply r = some r') : r'.WellFormed := by
  cases e with
  | insert pos text => exact RopeBuffer.insert_wellFormed hr (hTexts text (by simp [inserted])) h
  | delete pos count => exact RopeBuffer.delete_wellFormed hr h
  | replace pos count text =>
    obtain ⟨cut, hCut, h⟩ := Option.bind_eq_some_iff.mp h
    have hCutFormed := RopeBuffer.delete_wellFormed hr hCut
    exact RopeBuffer.insert_wellFormed hCutFormed (hTexts text (by simp [inserted])) h

theorem runEdits_wellFormed {r r' : RopeBuffer} (edits : List Edit) (hr : r.WellFormed)
    (hTexts : ∀ e ∈ edits, ∀ text ∈ e.inserted, BuildsEven text)
    (h : runEdits r edits = some r') : r'.WellFormed := by
  induction edits generalizing r with
  | nil => exact Option.some.inj h ▸ hr
  | cons e rest ih =>
    rw [runEdits, List.foldlM_cons] at h
    obtain ⟨next, hNext, hRest⟩ := Option.bind_eq_some_iff.mp h
    have hNextFormed := e.apply_wellFormed hr (hTexts e List.mem_cons_self) hNext
    exact ih hNextFormed (fun e he => hTexts e (List.mem_cons_of_mem _ he)) hRest

/-- A rope made from a text is well formed exactly when the text builds evenly, and it stays so under
all edits whose texts do. -/
theorem rope_wellFormed (start : List UInt32) :
    (∀ r, RopeBuffer.fromSlice start = some r → (r.WellFormed ↔ BuildsEven start)) ∧
    ∀ edits : List Edit, BuildsEven start →
      (∀ e ∈ edits, ∀ text ∈ e.inserted, BuildsEven text) →
      ∃ r, (RopeBuffer.fromSlice start).bind (runEdits · edits) = some r ∧ r.WellFormed := by
  have hStart : ∀ r, RopeBuffer.fromSlice start = some r → (r.WellFormed ↔ BuildsEven start) := by
    intro r h
    obtain ⟨root, hRoot, rfl⟩ := Option.map_eq_some_iff.mp h
    exact buildRopeFromSlice_wellFormed hRoot
  refine ⟨hStart, fun edits hEven hTexts => ?_⟩
  obtain ⟨first, hFirst, hExact, _⟩ := RopeBuffer.fromSlice_holds start
  obtain ⟨r, hRun, _, _⟩ := runEdits_holds hExact edits
  have hFirstFormed := (hStart first hFirst).mpr hEven
  exact ⟨r, by rw [hFirst]; exact hRun, runEdits_wellFormed edits hFirstFormed hTexts hRun⟩

/-- Three chunks come out balanced, and a further chunk in their middle does not change that. -/
theorem rope_wellFormed_threeChunks :
    ∃ r, (RopeBuffer.fromSlice (List.replicate 4097 65)).bind
        (runEdits · [.insert 3000 (List.replicate 2000 66)]) = some r ∧ r.WellFormed := by
  apply (rope_wellFormed (List.replicate 4097 65)).2
  · show NoDoubleZero (chunkCount (List.replicate 4097 (65 : UInt32)).length - 1)
    rw [List.length_replicate]
    exact noDoubleZero_step.mpr ⟨by decide, noDoubleZero_step.mpr ⟨by decide, noDoubleZero_zero⟩⟩
  · intro e he text hText
    rw [List.mem_singleton.mp he] at hText
    rw [List.mem_singleton.mp hText]
    show NoDoubleZero (chunkCount (List.replicate 2000 (66 : UInt32)).length - 1)
    rw [List.length_replicate]
    exact noDoubleZero_zero

/-- Five chunks: a tree of height two beside a leaf. -/
theorem rope_not_wellFormed :
    ¬ ∀ (start : List UInt32) (edits : List Edit), ∃ r,
      (RopeBuffer.fromSlice start).bind (runEdits · edits) = some r ∧ r.WellFormed := by
  intro h
  obtain ⟨r, hr, hFormed⟩ := h (List.replicate 8193 65) []
  obtain ⟨first, hFirst, hRun⟩ := Option.bind_eq_some_iff.mp hr
  obtain rfl := Option.some.inj hRun
  obtain ⟨root, hRoot, rfl⟩ := Option.map_eq_some_iff.mp hFirst
  have hEven := (buildRopeFromSlice_wellFormed hRoot).mp hFormed
  unfold BuildsEven at hEven
  rw [List.length_replicate] at hEven
  exact absurd ((noDoubleZero_step.mp hEven).1 (by decide)) (by decide)

end FactorForth.Editor
