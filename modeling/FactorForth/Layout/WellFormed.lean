import FactorForth.Layout.Graph
import FactorForth.Library.Runs

/-! Every operation keeps the lists of edges in step with the nodes and the edges, and none of those that
unwrap a list panics. -/

namespace FactorForth.Layout
open FactorForth.Library
variable {F : Type}

namespace EdgeLists
variable {lists : EdgeLists} {u v : String} {k key : EdgeKey}

theorem at_insert (lists : EdgeLists) (v u : String) (keys : List EdgeKey) :
    at_ (Dict.insert lists v keys) u = if v = u then keys else lists.at_ u := by
  rw [at_, Dict.lookup_insert]
  split
  · rfl
  · rfl

theorem at_erase (lists : EdgeLists) (v u : String) :
    at_ (Dict.erase lists v) u = if v = u then [] else lists.at_ u := by
  rw [at_, Dict.lookup_erase]
  split
  · rfl
  · rfl

theorem mem_contains (h : k ∈ lists.at_ v) : Dict.contains lists v = true := by
  rw [at_] at h
  rw [Dict.contains]
  cases hLists : lists.lookup v with
  | none =>
    rw [hLists] at h
    cases h
  | some keys => rfl

theorem mem_retain : k ∈ (lists.retain v key).at_ u ↔ k ∈ lists.at_ u ∧ (v = u → k ≠ key) := by
  unfold retain
  cases hLists : lists.lookup v with
  | none =>
    refine ⟨fun hIn => ⟨hIn, ?_⟩, And.left⟩
    rintro rfl
    rw [at_, hLists] at hIn
    cases hIn
  | some keys =>
    show k ∈ at_ (Dict.insert lists v (keys.filter fun k => k != key)) u ↔ _
    rw [at_insert]
    by_cases hEq : v = u
    · subst hEq
      rw [if_pos rfl, List.mem_filter, bne_iff_ne, at_, hLists]
      exact and_congr_right fun _ => ⟨fun hNe _ => hNe, fun hNe => hNe rfl⟩
    · rw [if_neg hEq]
      exact ⟨fun hIn => ⟨hIn, fun hSame => absurd hSame hEq⟩, And.left⟩

@[simp] theorem contains_retain : Dict.contains (lists.retain v key) u = Dict.contains lists u := by
  unfold retain
  cases hLists : lists.lookup v with
  | none => rfl
  | some keys =>
    show Dict.contains (Dict.insert lists v _) u = _
    rw [Dict.contains_insert]
    by_cases hEq : v = u
    · subst hEq
      simp [Dict.contains, hLists]
    · simp [hEq]

theorem push_of_contains (h : Dict.contains lists v = true) (key : EdgeKey) :
    ∃ lists', lists.push v key = some lists' ∧
      (∀ u, Dict.contains lists' u = Dict.contains lists u) ∧
      ∀ u, lists'.at_ u = if v = u then lists.at_ u ++ [key] else lists.at_ u := by
  obtain ⟨keys, hKeys⟩ := Dict.contains_iff.mp h
  refine ⟨Dict.insert lists v (keys ++ [key]), by rw [push, hKeys]; rfl, fun u => ?_, fun u => ?_⟩
  · rw [Dict.contains_insert]
    by_cases hEq : v = u
    · simp [← hEq, h]
    · simp [hEq]
  · rw [at_insert]
    split
    · next hEq => rw [← hEq, at_, hKeys]; rfl
    · rfl

end EdgeLists

namespace DagreGraph
variable {g g' : DagreGraph F} {v : String} {key : EdgeKey}

theorem new_wellFormed : (new : DagreGraph F).WellFormed where
  distinct := List.nodup_nil
  outLists := fun _ => rfl
  inLists := fun _ => rfl
  out := by simp [new, outEdgesOf, EdgeLists.at_, Dict.contains]
  into := by simp [new, inEdgesOf, EdgeLists.at_, Dict.contains]

@[simp] theorem edges_setNode (g : DagreGraph F) (v : String) (label : NodeLabel F) :
    (g.setNode v label).edges = g.edges := by
  unfold setNode
  split
  · rfl
  · rfl

@[simp] theorem edges_ensureNode [Zero F] (g : DagreGraph F) (v : String) :
    (g.ensureNode v).edges = g.edges := by
  unfold ensureNode
  split
  · rfl
  · exact edges_setNode ..

theorem contains_setNode (g : DagreGraph F) (v u : String) (label : NodeLabel F) :
    Dict.contains (g.setNode v label).nodes u = (decide (v = u) || Dict.contains g.nodes u) := by
  unfold setNode
  split
  · exact Dict.contains_insert ..
  · exact Dict.contains_insert ..

theorem contains_ensureNode [Zero F] (g : DagreGraph F) (v : String) :
    Dict.contains (g.ensureNode v).nodes v = true := by
  unfold ensureNode
  split
  · next h => exact h
  · rw [contains_setNode, decide_eq_true rfl, Bool.true_or]

theorem contains_ensureNode_mono [Zero F] {u : String} (h : Dict.contains g.nodes u = true) :
    Dict.contains (g.ensureNode v).nodes u = true := by
  unfold ensureNode
  split
  · exact h
  · rw [contains_setNode, h, Bool.or_true]

namespace WellFormed
variable (h : g.WellFormed)
include h

/-- Both ends of an edge are nodes. -/
theorem ends (hKey : Dict.contains g.edges key = true) :
    Dict.contains g.nodes key.v = true ∧ Dict.contains g.nodes key.w = true := by
  rw [← h.outLists, ← h.inLists]
  exact ⟨EdgeLists.mem_contains ((h.out key.v key).mpr ⟨rfl, hKey⟩),
    EdgeLists.mem_contains ((h.into key.w key).mpr ⟨rfl, hKey⟩)⟩

theorem setNode (v : String) (label : NodeLabel F) : (g.setNode v label).WellFormed := by
  unfold DagreGraph.setNode
  cases hv : Dict.contains g.nodes v with
  | true =>
    rw [if_pos rfl]
    refine ⟨h.distinct, fun u => ?_, fun u => ?_, h.out, h.into⟩
    · rw [h.outLists, Dict.contains_insert]
      by_cases hEq : v = u
      · simp [← hEq, hv]
      · simp [hEq]
    · rw [h.inLists, Dict.contains_insert]
      by_cases hEq : v = u
      · simp [← hEq, hv]
      · simp [hEq]
  | false =>
    rw [if_neg (by simp)]
    refine ⟨h.distinct, fun u => ?_, fun u => ?_, fun u k => ?_, fun u k => ?_⟩
    · rw [Dict.contains_insert, Dict.contains_insert, h.outLists]
    · rw [Dict.contains_insert, Dict.contains_insert, h.inLists]
    · show k ∈ EdgeLists.at_ (Dict.insert g.outEdges v []) u ↔ _
      rw [EdgeLists.at_insert]
      split
      · next hEq =>
        refine ⟨fun hIn => absurd hIn List.not_mem_nil, fun hIn => ?_⟩
        have hNode := (h.ends hIn.2).1
        rw [hIn.1, ← hEq, hv] at hNode
        cases hNode
      · exact h.out u k
    · show k ∈ EdgeLists.at_ (Dict.insert g.inEdges v []) u ↔ _
      rw [EdgeLists.at_insert]
      split
      · next hEq =>
        refine ⟨fun hIn => absurd hIn List.not_mem_nil, fun hIn => ?_⟩
        have hNode := (h.ends hIn.2).2
        rw [hIn.1, ← hEq, hv] at hNode
        cases hNode
      · exact h.into u k

theorem ensureNode [Zero F] (v : String) : (g.ensureNode v).WellFormed := by
  unfold DagreGraph.ensureNode
  split
  · exact h
  · exact h.setNode v _

theorem removeEdgeByKey (key : EdgeKey) : (g.removeEdgeByKey key).WellFormed := by
  unfold DagreGraph.removeEdgeByKey
  cases hKey : g.edges.lookup key with
  | none => exact h
  | some label =>
    refine ⟨h.distinct.erase key, fun u => ?_, fun u => ?_, fun u k => ?_, fun u k => ?_⟩
    · rw [EdgeLists.contains_retain, h.outLists]
    · rw [EdgeLists.contains_retain, h.inLists]
    · rw [outEdgesOf, EdgeLists.mem_retain, Dict.contains_erase]
      have hOut := h.out u k
      rw [outEdgesOf] at hOut
      rw [hOut]
      by_cases hEq : key = k
      · subst hEq
        simp only [ne_eq, not_true, imp_false, decide_true, Bool.not_true, Bool.false_and,
          Bool.false_eq_true, and_false, iff_false]
        rintro ⟨⟨hEnd, -⟩, hOther⟩
        exact hOther hEnd
      · simp [hEq, Ne.symm hEq]
    · rw [inEdgesOf, EdgeLists.mem_retain, Dict.contains_erase]
      have hInto := h.into u k
      rw [inEdgesOf] at hInto
      rw [hInto]
      by_cases hEq : key = k
      · subst hEq
        simp only [ne_eq, not_true, imp_false, decide_true, Bool.not_true, Bool.false_and,
          Bool.false_eq_true, and_false, iff_false]
        rintro ⟨⟨hEnd, -⟩, hOther⟩
        exact hOther hEnd
      · simp [hEq, Ne.symm hEq]

/-- An edge between nodes goes in without a panic. -/
theorem insertEdge (key : EdgeKey) (label : EdgeLabel F) (hv : Dict.contains g.nodes key.v = true)
    (hw : Dict.contains g.nodes key.w = true) :
    ∃ g', g.insertEdge key label = some g' ∧ g'.WellFormed ∧ g'.nodes = g.nodes ∧
      g'.edges = Dict.insert g.edges key label ∧ g'.edgeCounter = g.edgeCounter ∧
      g'.dummyChains = g.dummyChains := by
  obtain ⟨outEdges, hOut, hOutHas, hOutAt⟩ :=
    EdgeLists.push_of_contains ((h.outLists key.v).trans hv) key
  obtain ⟨inEdges, hIn, hInHas, hInAt⟩ :=
    EdgeLists.push_of_contains ((h.inLists key.w).trans hw) key
  have hRun : g.insertEdge key label = some { g with
      edges := Dict.insert g.edges key label, outEdges := outEdges, inEdges := inEdges } := by
    simp [DagreGraph.insertEdge, hOut, hIn]
  refine ⟨_, hRun, ?_, rfl, rfl, rfl, rfl⟩
  refine ⟨h.distinct.insert key label, fun u => ?_, fun u => ?_, fun u k => ?_, fun u k => ?_⟩
  · rw [hOutHas, h.outLists]
  · rw [hInHas, h.inLists]
  · have hOld := h.out u k
    rw [outEdgesOf] at hOld
    rw [outEdgesOf, hOutAt, Dict.contains_insert]
    by_cases hEq : key = k
    · subst hEq
      by_cases hu : key.v = u <;> simp [hu, hOld]
    · by_cases hu : key.v = u <;> simp [hu, hOld, hEq, Ne.symm hEq]
  · have hOld := h.into u k
    rw [inEdgesOf] at hOld
    rw [inEdgesOf, hInAt, Dict.contains_insert]
    by_cases hEq : key = k
    · subst hEq
      by_cases hu : key.w = u <;> simp [hu, hOld]
    · by_cases hu : key.w = u <;> simp [hu, hOld, hEq, Ne.symm hEq]

theorem setEdge [Zero F] (key : EdgeKey) (label : EdgeLabel F) :
    ∃ g', g.setEdge key label = some g' ∧ g'.WellFormed ∧ g'.edges = Dict.insert g.edges key label := by
  have hEnsured := (h.ensureNode key.v).ensureNode key.w
  have hv : Dict.contains ((g.ensureNode key.v).ensureNode key.w).nodes key.v = true :=
    contains_ensureNode_mono (contains_ensureNode g key.v)
  obtain ⟨g', hRun, hg', -, hEdges, -⟩ := hEnsured.insertEdge key label hv (contains_ensureNode _ key.w)
  refine ⟨g', hRun, hg', hEdges.trans ?_⟩
  rw [edges_ensureNode, edges_ensureNode]

end WellFormed

theorem dropOut_spec (keys : List EdgeKey) (g : DagreGraph F) :
    (g.dropOut keys).nodes = g.nodes ∧ (g.dropOut keys).outEdges = g.outEdges ∧
      (∀ k, Dict.contains (g.dropOut keys).edges k = (decide (k ∉ keys) && Dict.contains g.edges k)) ∧
      (Dict.Distinct g.edges → Dict.Distinct (g.dropOut keys).edges) ∧
      (∀ u, Dict.contains (g.dropOut keys).inEdges u = Dict.contains g.inEdges u) ∧
      ∀ u k, k ∈ (g.dropOut keys).inEdgesOf u ↔ k ∈ g.inEdgesOf u ∧ (k.w = u → k ∉ keys) := by
  induction keys generalizing g with
  | nil => simp [dropOut]
  | cons key keys ih =>
    obtain ⟨hNodes, hOut, hEdges, hDistinct, hHas, hAt⟩ :=
      ih { g with edges := Dict.erase g.edges key, inEdges := g.inEdges.retain key.w key }
    have hCons : g.dropOut (key :: keys) =
      dropOut { g with edges := Dict.erase g.edges key, inEdges := g.inEdges.retain key.w key } keys := rfl
    rw [hCons]
    refine ⟨hNodes, hOut, fun k => ?_, fun h => hDistinct (h.erase key), fun u => ?_, fun u k => ?_⟩
    · rw [hEdges, Dict.contains_erase]
      by_cases hEq : key = k
      · simp [hEq]
      · simp [hEq, Ne.symm hEq]
    · rw [hHas, EdgeLists.contains_retain]
    · rw [hAt, inEdgesOf, EdgeLists.mem_retain, inEdgesOf, List.mem_cons, not_or]
      constructor
      · rintro ⟨⟨hIn, hKey⟩, hRest⟩
        exact ⟨hIn, fun hu => ⟨fun hEq => hKey (hEq ▸ hu) hEq, hRest hu⟩⟩
      · rintro ⟨hIn, hRest⟩
        exact ⟨⟨hIn, fun hu hEq => (hRest (hEq ▸ hu)).1 hEq⟩, fun hu => (hRest hu).2⟩

theorem dropInto_spec (keys : List EdgeKey) (g : DagreGraph F) :
    (g.dropInto keys).nodes = g.nodes ∧ (g.dropInto keys).inEdges = g.inEdges ∧
      (∀ k, Dict.contains (g.dropInto keys).edges k = (decide (k ∉ keys) && Dict.contains g.edges k)) ∧
      (Dict.Distinct g.edges → Dict.Distinct (g.dropInto keys).edges) ∧
      (∀ u, Dict.contains (g.dropInto keys).outEdges u = Dict.contains g.outEdges u) ∧
      ∀ u k, k ∈ (g.dropInto keys).outEdgesOf u ↔ k ∈ g.outEdgesOf u ∧ (k.v = u → k ∉ keys) := by
  induction keys generalizing g with
  | nil => simp [dropInto]
  | cons key keys ih =>
    obtain ⟨hNodes, hIn, hEdges, hDistinct, hHas, hAt⟩ :=
      ih { g with edges := Dict.erase g.edges key, outEdges := g.outEdges.retain key.v key }
    have hCons : g.dropInto (key :: keys) =
      dropInto { g with edges := Dict.erase g.edges key, outEdges := g.outEdges.retain key.v key } keys := rfl
    rw [hCons]
    refine ⟨hNodes, hIn, fun k => ?_, fun h => hDistinct (h.erase key), fun u => ?_, fun u k => ?_⟩
    · rw [hEdges, Dict.contains_erase]
      by_cases hEq : key = k
      · simp [hEq]
      · simp [hEq, Ne.symm hEq]
    · rw [hHas, EdgeLists.contains_retain]
    · rw [hAt, outEdgesOf, EdgeLists.mem_retain, outEdgesOf, List.mem_cons, not_or]
      constructor
      · rintro ⟨⟨hOut, hKey⟩, hRest⟩
        exact ⟨hOut, fun hu => ⟨fun hEq => hKey (hEq ▸ hu) hEq, hRest hu⟩⟩
      · rintro ⟨hOut, hRest⟩
        exact ⟨⟨hOut, fun hu hEq => (hRest (hEq ▸ hu)).1 hEq⟩, fun hu => (hRest hu).2⟩

/-- A node goes with its edges, and nothing else. -/
theorem WellFormed.removeNode_spec (h : g.WellFormed) (hv : Dict.contains g.nodes v = true) :
    (g.removeNode v).WellFormed ∧ (g.removeNode v).nodes = Dict.erase g.nodes v ∧
      ∀ k, Dict.contains (g.removeNode v).edges k =
        (decide (k.v ≠ v ∧ k.w ≠ v) && Dict.contains g.edges k) := by
  obtain ⟨hNodes₁, hOut₁, hEdges₁, hDistinct₁, hHas₁, hAt₁⟩ := dropOut_spec (g.outEdgesOf v)
    { g with nodes := Dict.erase g.nodes v, outEdges := Dict.erase g.outEdges v }
  obtain ⟨g₁, hg₁⟩ : ∃ g₁, dropOut
    { g with nodes := Dict.erase g.nodes v, outEdges := Dict.erase g.outEdges v } (g.outEdgesOf v) = g₁ :=
      ⟨_, rfl⟩
  rw [hg₁] at hNodes₁ hOut₁ hEdges₁ hDistinct₁ hHas₁ hAt₁
  obtain ⟨hNodes, hIn, hEdges, hDistinct, hHas, hAt⟩ :=
    dropInto_spec (g₁.inEdgesOf v) { g₁ with inEdges := Dict.erase g₁.inEdges v }
  have hRemove : g.removeNode v = dropInto { g₁ with inEdges := Dict.erase g₁.inEdges v } (g₁.inEdgesOf v) := by
    rw [removeNode, if_pos hv, ← hg₁]
  rw [hRemove]
  have hKept : ∀ k, Dict.contains (dropInto { g₁ with inEdges := Dict.erase g₁.inEdges v }
      (g₁.inEdgesOf v)).edges k = (decide (k.v ≠ v ∧ k.w ≠ v) && Dict.contains g.edges k) := by
    intro k
    rw [hEdges, Bool.eq_iff_iff, Bool.and_eq_true, Bool.and_eq_true, decide_eq_true_iff, decide_eq_true_iff,
      hEdges₁, Bool.and_eq_true, decide_eq_true_iff, hAt₁]
    have hOutOf := h.out v k
    have hIntoOf : k ∈ DagreGraph.inEdgesOf
        { g with nodes := Dict.erase g.nodes v, outEdges := Dict.erase g.outEdges v } v ↔ _ := h.into v k
    rw [hOutOf, hIntoOf]
    constructor
    · rintro ⟨hNotInto, hNotOut, hIn⟩
      have hv' : k.v ≠ v := fun hEq => hNotOut ⟨hEq, hIn⟩
      exact ⟨⟨hv', fun hEq => hNotInto ⟨⟨hEq, hIn⟩, fun _ hBoth => hv' hBoth.1⟩⟩, hIn⟩
    · rintro ⟨⟨hv', hw'⟩, hIn⟩
      exact ⟨fun hBoth => hw' hBoth.1.1, fun hBoth => hv' hBoth.1, hIn⟩
  refine ⟨⟨hDistinct (hDistinct₁ h.distinct), fun u => ?_, fun u => ?_, fun u k => ?_, fun u k => ?_⟩,
    hNodes.trans hNodes₁, hKept⟩
  · rw [hHas, hNodes]
    show Dict.contains g₁.outEdges u = Dict.contains g₁.nodes u
    rw [hOut₁, hNodes₁]
    show Dict.contains (Dict.erase g.outEdges v) u = Dict.contains (Dict.erase g.nodes v) u
    rw [Dict.contains_erase, Dict.contains_erase, h.outLists]
  · rw [hIn, hNodes]
    show Dict.contains (Dict.erase g₁.inEdges v) u = Dict.contains g₁.nodes u
    rw [Dict.contains_erase, hHas₁, hNodes₁, h.inLists]
    exact (Dict.contains_erase g.nodes v u).symm
  · have hList : DagreGraph.outEdgesOf { g₁ with inEdges := Dict.erase g₁.inEdges v } u =
        if v = u then [] else g.outEdgesOf u := by
      show EdgeLists.at_ g₁.outEdges u = _
      rw [hOut₁]
      exact EdgeLists.at_erase g.outEdges v u
    have hInto : k ∈ g₁.inEdgesOf v ↔ (k.w = v ∧ Dict.contains g.edges k = true) ∧
        (k.w = v → k ∉ g.outEdgesOf v) := by
      rw [hAt₁]
      exact and_congr_left' (h.into v k)
    rw [hAt, hList, hKept, Bool.and_eq_true, decide_eq_true_iff, hInto, h.out v k]
    by_cases hu : v = u
    · rw [if_pos hu]
      refine ⟨fun hNo => absurd hNo.1 List.not_mem_nil, fun hNo => absurd hNo.1 ?_⟩
      rw [← hu]
      exact hNo.2.1.1
    · rw [if_neg hu, h.out u k]
      constructor
      · rintro ⟨⟨hk, hIn⟩, hNot⟩
        have hv' : k.v ≠ v := fun hEq => hu (hEq.symm.trans hk)
        exact ⟨hk, ⟨hv', fun hw => hNot hk ⟨⟨hw, hIn⟩, fun _ hBoth => hv' hBoth.1⟩⟩, hIn⟩
      · rintro ⟨hk, ⟨hv', hw'⟩, hIn⟩
        exact ⟨⟨hk, hIn⟩, fun _ hBoth => hw' hBoth.1.1⟩
  · have hList : DagreGraph.inEdgesOf (dropInto { g₁ with inEdges := Dict.erase g₁.inEdges v }
        (g₁.inEdgesOf v)) u = if v = u then [] else g₁.inEdgesOf u := by
      show EdgeLists.at_ _ u = _
      rw [hIn]
      exact EdgeLists.at_erase g₁.inEdges v u
    have hInto : k ∈ g₁.inEdgesOf u ↔ (k.w = u ∧ Dict.contains g.edges k = true) ∧
        (k.w = u → k ∉ g.outEdgesOf v) := by
      rw [hAt₁]
      exact and_congr_left' (h.into u k)
    rw [hList, hKept, Bool.and_eq_true, decide_eq_true_iff]
    by_cases hu : v = u
    · rw [if_pos hu]
      refine ⟨fun hNo => absurd hNo List.not_mem_nil, fun hNo => absurd hNo.1 ?_⟩
      rw [← hu]
      exact hNo.2.1.2
    · rw [if_neg hu, hInto, h.out v k]
      constructor
      · rintro ⟨⟨hk, hIn⟩, hNot⟩
        exact ⟨hk, ⟨fun hEq => hNot hk ⟨hEq, hIn⟩, fun hEq => hu (hEq.symm.trans hk)⟩, hIn⟩
      · rintro ⟨hk, ⟨hv', -⟩, hIn⟩
        exact ⟨⟨hk, hIn⟩, fun _ hBoth => hv' hBoth.1⟩

theorem WellFormed.removeNode (h : g.WellFormed) (v : String) : (g.removeNode v).WellFormed := by
  by_cases hv : Dict.contains g.nodes v = true
  · exact (h.removeNode_spec hv).1
  · rw [DagreGraph.removeNode, if_neg hv]
    exact h

theorem apply_wellFormed [Zero F] (h : g.WellFormed) (op : Op F) :
    ∃ g', op.apply g = some g' ∧ g'.WellFormed := by
  cases op with
  | setNode v label => exact ⟨_, rfl, h.setNode v label⟩
  | setEdge key label =>
    obtain ⟨g', hRun, hg', -⟩ := h.setEdge key label
    exact ⟨g', hRun, hg'⟩
  | setParent v parent => exact ⟨_, rfl, (h.ensureNode v).ensureNode parent⟩
  | removeNode v => exact ⟨_, rfl, h.removeNode v⟩
  | removeEdge key => exact ⟨_, rfl, h.removeEdgeByKey key⟩

/-- No use of a graph panics, and each leaves its lists in step. -/
theorem build_wellFormed [Zero F] (ops : List (Op F)) : ∃ g, build ops = some g ∧ g.WellFormed := by
  exact foldlM_keeps (fun g op _ h => apply_wellFormed h op) new_wellFormed

end DagreGraph
end FactorForth.Layout
