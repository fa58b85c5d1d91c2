import FactorForth.Layout.WellFormed
import FactorForth.Library.DepthFirst

/-! Cycle removal: the edges that a depth-first search finds to lead back are turned round before the
layout, under names of their own, and turned again behind it. -/

namespace FactorForth.Layout
open FactorForth.Library
variable {F : Type}

namespace DagreGraph

/-- One round of the loop of `remove_self_edges`. -/
def removeSelfEdge (g : DagreGraph F) (key : EdgeKey) : DagreGraph F :=
  match g.edges.lookup key, g.nodes.lookup key.v with
  | none, _ => g
  | some _, none => g.removeEdgeByKey key
  | some label, some node =>
    let node := { node with selfEdges := node.selfEdges ++ [(key, label)] }
    removeEdgeByKey { g with nodes := Dict.insert g.nodes key.v node } key

/-- `remove_self_edges`: they wait at their nodes, and are no edges of the graph meanwhile. -/
def removeSelfEdges (g : DagreGraph F) : DagreGraph F :=
  ((g.edges.map Prod.fst).filter fun key => key.v == key.w).foldl removeSelfEdge g

/-- The back edges of a depth-first search from the sources, and then from all that is left. A call goes
at most as deep as there are nodes. -/
def dfsFas (g : DagreGraph F) : Option (List EdgeKey) :=
  let dfs := fun (s : Search String EdgeKey) (v : String) =>
    Search.visit g.outEdgesOf EdgeKey.w (g.nodeCount + 1) v s
  let nodes := g.nodeIds
  let sources := (nodes.filter fun v => (g.inEdgesOf v).isEmpty).insertionSort (· ≤ ·)
  do
    let s ← sources.foldlM dfs .start
    let s ← nodes.foldlM dfs s
    return s.back

/-- One round of the loop of `acyclic::run`. -/
def turn (g : DagreGraph F) (key : EdgeKey) : Option (DagreGraph F) :=
  match g.edges.lookup key with
  | none => some g
  | some label =>
    let label := { label with forwardName := key.name, reversed := true }
    let (revName, g) := (g.removeEdgeByKey key).uniqueId "rev"
    g.insertEdge ⟨key.w, key.v, some revName⟩ label

/-- `acyclic::run` with `Acyclicer::Dfs`, which is what the layout asks for. -/
def makeAcyclic (g : DagreGraph F) : Option (DagreGraph F) := do
  let fas ← g.dfsFas
  fas.foldlM turn g

theorem mem_nodeIds {g : DagreGraph F} {v : String} : v ∈ g.nodeIds ↔ Dict.contains g.nodes v = true := by
  rw [nodeIds, (List.perm_insertionSort _ _).mem_iff, Dict.mem_keys]

theorem length_nodeIds (g : DagreGraph F) : g.nodeIds.length = g.nodeCount := by
  rw [nodeIds, List.length_insertionSort, List.length_map]
  rfl

variable {g : DagreGraph F}

theorem lookup_removeEdgeByKey (g : DagreGraph F) (key k : EdgeKey) :
    (g.removeEdgeByKey key).edges.lookup k = if key = k then none else g.edges.lookup k := by
  unfold removeEdgeByKey
  cases hKey : g.edges.lookup key with
  | none =>
    by_cases hEq : key = k
    · rw [if_pos hEq, ← hEq, hKey]
    · rw [if_neg hEq]
  | some label => exact Dict.lookup_erase g.edges key k

theorem nodes_removeEdgeByKey (g : DagreGraph F) (key : EdgeKey) :
    (g.removeEdgeByKey key).nodes = g.nodes := by
  unfold removeEdgeByKey
  split
  · rfl
  · rfl

/-- Its search goes through the whole graph and gives an order in which all edges but the back edges lead
on, and these lead back. -/
theorem dfsFas_spec (h : g.WellFormed)
    (hLoop : ∀ key, Dict.contains g.edges key = true → key.v ≠ key.w) :
    ∃ fas order, g.dfsFas = some fas ∧ order.Nodup ∧
      (∀ key ∈ fas, Dict.contains g.edges key = true ∧ Before order key.w key.v ∧
        Relation.ReflTransGen g.Linked key.w key.v) ∧
      ∀ key, Dict.contains g.edges key = true → key ∉ fas → Before order key.v key.w := by
  have hSource : ∀ v, ∀ e ∈ g.outEdgesOf v, e.v = v := fun v e he => ((h.out v e).mp he).1
  have hNoLoop : ∀ v, ∀ e ∈ g.outEdgesOf v, e.w ≠ v := by
    intro v e he hEq
    obtain ⟨hv, hKey⟩ := (h.out v e).mp he
    exact hLoop e hKey (hv.trans hEq.symm)
  have hClosed : ∀ v, ∀ e ∈ g.outEdgesOf v, e.w ∈ g.nodeIds := by
    intro v e he
    exact mem_nodeIds.mpr (h.ends ((h.out v e).mp he).2).2
  have hSources : (g.nodeIds.filter fun v => (g.inEdgesOf v).isEmpty).insertionSort (· ≤ ·) ++ g.nodeIds ⊆
      g.nodeIds := by
    refine List.append_subset.mpr ⟨fun v hv => ?_, List.Subset.refl _⟩
    rw [(List.perm_insertionSort _ _).mem_iff] at hv
    exact List.mem_of_mem_filter hv
  obtain ⟨s, hRun, hOwn, order, hNodup, hOrder⟩ := Search.search_spec hSource hNoLoop hClosed (g.nodeCount + 1)
    ((length_nodeIds g).trans_lt (Nat.lt_succ_self _)) _ hSources (List.subset_append_right _ _)
  refine ⟨s.back, order, ?_, hNodup, fun key hKey => ?_, fun key hKey => ?_⟩
  · rw [List.foldlM_append] at hRun
    obtain ⟨s₁, hFirst, hSecond⟩ := Option.bind_eq_some_iff.mp hRun
    simp only [dfsFas, hFirst, hSecond, Option.bind_eq_bind, Option.bind_some]
    rfl
  · obtain ⟨hIn, hWay⟩ := hOwn key hKey
    have hOut := (h.out key.v key).mp hIn
    have hNode := mem_nodeIds.mpr (h.ends hOut.2).1
    have hLinked : ∀ v w, Search.Leads g.outEdgesOf EdgeKey.w v w → g.Linked v w := by
      rintro v w ⟨e, he, rfl⟩
      exact ⟨e, ((h.out v e).mp he).2, ((h.out v e).mp he).1, rfl⟩
    exact ⟨hOut.2, (hOrder key.v hNode key hIn).2 hKey, Relation.ReflTransGen.mono hLinked _ _ hWay⟩
  · have hNode := mem_nodeIds.mpr (h.ends hKey).1
    exact (hOrder key.v hNode key ((h.out key.v key).mpr ⟨rfl, hKey⟩)).1

/-- The key of an edge that was turned round as the `n`-th. -/
def revKey (key : EdgeKey) (n : Nat) : EdgeKey := ⟨key.w, key.v, some ("rev" ++ "_" ++ toString n)⟩

theorem edges_removeEdgeByKey {key : EdgeKey} {label : EdgeLabel F} (hKey : g.edges.lookup key = some label) :
    (g.removeEdgeByKey key).edges = Dict.erase g.edges key ∧
      (g.removeEdgeByKey key).edgeCounter = g.edgeCounter := by
  unfold removeEdgeByKey
  rw [hKey]
  exact ⟨rfl, rfl⟩

/-- An edge goes, and one between its ends the other way round comes. -/
theorem swapEdge_spec (h : g.WellFormed) {key : EdgeKey} {label : EdgeLabel F}
    (hKey : g.edges.lookup key = some label) (n : Nat) (name : Option String) (label' : EdgeLabel F) :
    ∃ g', insertEdge { g.removeEdgeByKey key with edgeCounter := n } ⟨key.w, key.v, name⟩ label' = some g' ∧
      g'.WellFormed ∧ g'.nodes = g.nodes ∧ g'.edgeCounter = n ∧
      g'.edges = Dict.insert (Dict.erase g.edges key) ⟨key.w, key.v, name⟩ label' := by
  obtain ⟨hEdges, -⟩ := edges_removeEdgeByKey hKey
  obtain ⟨hv, hw⟩ := h.ends (Dict.contains_iff.mpr ⟨label, hKey⟩)
  have hRemoved := h.removeEdgeByKey key
  have hCounted : WellFormed { g.removeEdgeByKey key with edgeCounter := n } :=
    ⟨hRemoved.distinct, hRemoved.outLists, hRemoved.inLists, hRemoved.out, hRemoved.into⟩
  have hNodes := nodes_removeEdgeByKey g key
  obtain ⟨g', hRun, hg', hNodes', hEdges', hCounter', -⟩ := hCounted.insertEdge ⟨key.w, key.v, name⟩ label'
    ((congrArg (Dict.contains · key.w) hNodes).trans hw) ((congrArg (Dict.contains · key.v) hNodes).trans hv)
  refine ⟨g', hRun, hg', hNodes'.trans hNodes, hCounter', hEdges'.trans ?_⟩
  rw [hEdges]

/-- What turning an edge round does to the graph. -/
theorem turn_spec (h : g.WellFormed) {key : EdgeKey} {label : EdgeLabel F} (hKey : g.edges.lookup key = some label) :
    ∃ g', g.turn key = some g' ∧ g'.WellFormed ∧ g'.nodes = g.nodes ∧ g'.edgeCounter = g.edgeCounter + 1 ∧
      g'.edges = Dict.insert (Dict.erase g.edges key) (revKey key (g.edgeCounter + 1))
        { label with forwardName := key.name, reversed := true } := by
  obtain ⟨-, hCounter⟩ := edges_removeEdgeByKey hKey
  obtain ⟨g', hRun, hSwapped⟩ := swapEdge_spec h hKey (g.edgeCounter + 1) (revKey key (g.edgeCounter + 1)).name
    { label with forwardName := key.name, reversed := true }
  refine ⟨g', ?_, hSwapped⟩
  simp only [turn, hKey, uniqueId, hCounter]
  exact hRun

/-- Once every edge that led back is turned round, all edges lead on in the order. -/
theorem foldlM_turn_forward {order : List String} (fas : List EdgeKey) :
    ∀ g : DagreGraph F, g.WellFormed → (∀ key ∈ fas, Before order key.w key.v) →
      (∀ key, Dict.contains g.edges key = true → key ∉ fas → Before order key.v key.w) →
      ∃ g', fas.foldlM turn g = some g' ∧ g'.WellFormed ∧
        ∀ key, Dict.contains g'.edges key = true → Before order key.v key.w := by
  induction fas with
  | nil => exact fun g h _ hOn => ⟨g, rfl, h, fun key hKey => hOn key hKey List.not_mem_nil⟩
  | cons key fas ih =>
    intro g h hBack hOn
    obtain ⟨hHead, hTail⟩ := List.forall_mem_cons.mp hBack
    rw [List.foldlM_cons]
    cases hLabel : g.edges.lookup key with
    | none =>
      have hSkip : g.turn key = some g := by
        unfold turn
        rw [hLabel]
      rw [hSkip]
      refine ih g h hTail fun k hk hNot => hOn k hk fun hIn => ?_
      rcases List.mem_cons.mp hIn with rfl | hIn
      · rw [Dict.contains, hLabel] at hk
        cases hk
      · exact hNot hIn
    | some label =>
      obtain ⟨g₁, hTurn, h₁, -, -, hEdges⟩ := turn_spec h hLabel
      rw [hTurn]
      refine ih g₁ h₁ hTail fun k hk hNot => ?_
      rw [hEdges, Dict.contains_insert, Bool.or_eq_true, decide_eq_true_iff, Dict.contains_erase,
        Bool.and_eq_true, Bool.not_eq_true', decide_eq_false_iff_not] at hk
      rcases hk with rfl | ⟨hNe, hk⟩
      · exact hHead
      · refine hOn k hk fun hIn => ?_
        rcases List.mem_cons.mp hIn with rfl | hIn
        · exact hNe rfl
        · exact hNot hIn

theorem removeSelfEdge_spec (h : g.WellFormed) (key : EdgeKey) :
    (g.removeSelfEdge key).WellFormed ∧
      ∀ k, (g.removeSelfEdge key).edges.lookup k = if key = k then none else g.edges.lookup k := by
  unfold removeSelfEdge
  cases hKey : g.edges.lookup key with
  | none =>
    refine ⟨h, fun k => ?_⟩
    by_cases hEq : key = k
    · rw [if_pos hEq, ← hEq, hKey]
    · rw [if_neg hEq]
  | some label =>
    cases hNode : g.nodes.lookup key.v with
    | none => exact ⟨h.removeEdgeByKey key, lookup_removeEdgeByKey g key⟩
    | some node =>
      have hStored := h.setNode key.v { node with selfEdges := node.selfEdges ++ [(key, label)] }
      rw [setNode, if_pos (Dict.contains_iff.mpr ⟨node, hNode⟩)] at hStored
      exact ⟨hStored.removeEdgeByKey key, lookup_removeEdgeByKey _ key⟩

/-- The edges that are left are those with two ends. -/
theorem removeSelfEdges_spec (h : g.WellFormed) :
    g.removeSelfEdges.WellFormed ∧
      ∀ key, g.removeSelfEdges.edges.lookup key = if key.v = key.w then none else g.edges.lookup key := by
  have hFold : ∀ (keys : List EdgeKey) (g : DagreGraph F), g.WellFormed →
      (keys.foldl removeSelfEdge g).WellFormed ∧
        ∀ k, (keys.foldl removeSelfEdge g).edges.lookup k =
          if k ∈ keys then none else g.edges.lookup k := by
    intro keys
    induction keys with
    | nil => exact fun g h => ⟨h, by simp⟩
    | cons key keys ih =>
      intro g h
      obtain ⟨h₁, hEdges₁⟩ := removeSelfEdge_spec h key
      obtain ⟨h', hEdges'⟩ := ih _ h₁
      refine ⟨h', fun k => ?_⟩
      rw [List.foldl_cons, hEdges', hEdges₁]
      by_cases hEq : key = k
      · simp [hEq]
      · simp [hEq, Ne.symm hEq]
  obtain ⟨hWell, hEdges⟩ := hFold ((g.edges.map Prod.fst).filter fun key => key.v == key.w) g h
  refine ⟨hWell, fun key => ?_⟩
  have hMem : key ∈ ((g.edges.map Prod.fst).filter fun key => key.v == key.w) ↔
      Dict.contains g.edges key = true ∧ key.v = key.w := by
    rw [List.mem_filter, Dict.mem_keys, beq_iff_eq]
  rw [removeSelfEdges, hEdges, if_congr hMem rfl rfl]
  by_cases hEnds : key.v = key.w
  · cases hLabel : g.edges.lookup key with
    | none => rw [ite_self, ite_self]
    | some label => rw [if_pos ⟨Dict.contains_iff.mpr ⟨label, hLabel⟩, hEnds⟩, if_pos hEnds]
  · rw [if_neg fun hBoth => hEnds hBoth.2, if_neg hEnds]

theorem contains_removeSelfEdges (h : g.WellFormed) (key : EdgeKey) :
    Dict.contains g.removeSelfEdges.edges key = true ↔
      Dict.contains g.edges key = true ∧ key.v ≠ key.w := by
  rw [Dict.contains, (removeSelfEdges_spec h).2]
  by_cases hEnds : key.v = key.w <;> simp [hEnds, Dict.contains]

/-- That an edge joins the two nodes, in either direction. -/
def Joined (g : DagreGraph F) (v w : String) : Prop := g.Linked v w ∨ g.Linked w v

theorem turn_joined {g' : DagreGraph F} {key : EdgeKey} {label : EdgeLabel F} {n : Nat}
    {label' : EdgeLabel F} (hKey : g.edges.lookup key = some label)
    (hEdges : g'.edges = Dict.insert (Dict.erase g.edges key) (revKey key n) label') (v w : String) :
    g'.Joined v w ↔ g.Joined v w := by
  have hRev : Dict.contains g'.edges (revKey key n) = true := by
    rw [hEdges, Dict.contains_insert, decide_eq_true rfl, Bool.true_or]
  have hOld : Dict.contains g.edges key = true := Dict.contains_iff.mpr ⟨label, hKey⟩
  have hOther : ∀ k, k ≠ key → k ≠ revKey key n →
      Dict.contains g'.edges k = Dict.contains g.edges k := by
    intro k hNe hNeRev
    rw [hEdges, Dict.contains_insert, Dict.contains_erase, decide_eq_false (Ne.symm hNe),
      decide_eq_false (Ne.symm hNeRev)]
    rfl
  have hTo : ∀ v w, g.Linked v w → g'.Joined v w := by
    rintro v w ⟨k, hk, rfl, rfl⟩
    by_cases hEq : k = key
    · rw [hEq]
      exact .inr ⟨revKey key n, hRev, rfl, rfl⟩
    · by_cases hEqRev : k = revKey key n
      · exact .inl ⟨revKey key n, hRev, by rw [hEqRev], by rw [hEqRev]⟩
      · exact .inl ⟨k, (hOther k hEq hEqRev).trans hk, rfl, rfl⟩
  have hFrom : ∀ v w, g'.Linked v w → g.Joined v w := by
    rintro v w ⟨k, hk, rfl, rfl⟩
    by_cases hEqRev : k = revKey key n
    · rw [hEqRev]
      exact .inr ⟨key, hOld, rfl, rfl⟩
    · by_cases hEq : k = key
      · exact .inl ⟨key, hOld, by rw [hEq], by rw [hEq]⟩
      · exact .inl ⟨k, (hOther k hEq hEqRev).symm.trans hk, rfl, rfl⟩
  constructor
  · exact fun h => h.elim (hFrom v w) fun h => (hFrom w v h).symm
  · exact fun h => h.elim (hTo v w) fun h => (hTo w v h).symm

theorem foldlM_turn_joined (fas : List EdgeKey) : ∀ g g' : DagreGraph F, g.WellFormed →
    fas.foldlM turn g = some g' → ∀ v w, g'.Joined v w ↔ g.Joined v w := by
  induction fas with
  | nil =>
    intro g g' _ hRun v w
    cases hRun
    rfl
  | cons key fas ih =>
    intro g g' h hRun v w
    rw [List.foldlM_cons] at hRun
    cases hLabel : g.edges.lookup key with
    | none =>
      rw [turn, hLabel] at hRun
      exact ih g g' h hRun v w
    | some label =>
      obtain ⟨g₁, hTurn, h₁, -, -, hEdges⟩ := turn_spec h hLabel
      rw [hTurn] at hRun
      rw [ih g₁ g' h₁ hRun v w]
      exact turn_joined hLabel hEdges v w

theorem makeAcyclic_spec (h : g.WellFormed)
    (hLoop : ∀ key, Dict.contains g.edges key = true → key.v ≠ key.w) :
    ∃ g', g.makeAcyclic = some g' ∧ g'.WellFormed ∧ Acyclic g'.Linked ∧
      (∀ v w, g'.Joined v w ↔ g.Joined v w) ∧ (Acyclic g.Linked → g' = g) := by
  obtain ⟨fas, order, hFas, hNodup, hBack, hOn⟩ := dfsFas_spec h hLoop
  obtain ⟨g', hRun, hg', hForward⟩ :=
    foldlM_turn_forward fas g h (fun key hKey => (hBack key hKey).2.1) hOn
  refine ⟨g', ?_, hg', acyclic_of_before hNodup ?_, foldlM_turn_joined fas g g' h hRun, fun hAcyclic => ?_⟩
  · rw [makeAcyclic, hFas]
    exact hRun
  · rintro v w ⟨key, hKey, rfl, rfl⟩
    exact hForward key hKey
  · cases fas with
    | nil => exact (Option.some.inj hRun).symm
    | cons key fas =>
      -- an edge that leads back closes a cycle
      obtain ⟨hKey, -, hWay⟩ := hBack key List.mem_cons_self
      exact absurd (.head' ⟨key, hKey, rfl, rfl⟩ hWay) (hAcyclic key.v)

/-- The layout sees no cycle: whatever graph its callers build, the edges between different nodes survive
cycle removal without a panic, in one direction or the other, so that no way along them leads back to
where it started, and a graph that has no cycle is left alone. -/
theorem cycles_removed [Zero F] (ops : List (Op F)) :
    ∃ g g', build ops = some g ∧ g.removeSelfEdges.makeAcyclic = some g' ∧ Acyclic g'.Linked ∧
      (∀ v w, g'.Joined v w ↔ v ≠ w ∧ g.Joined v w) ∧
      (Acyclic g.removeSelfEdges.Linked → g' = g.removeSelfEdges) := by
  obtain ⟨g, hBuild, hg⟩ := build_wellFormed ops
  have hEdges := contains_removeSelfEdges hg
  obtain ⟨g', hRun, -, hAcyclic, hJoined, hSame⟩ :=
    makeAcyclic_spec (removeSelfEdges_spec hg).1 fun key hKey => ((hEdges key).mp hKey).2
  have hLinked : ∀ v w, g.removeSelfEdges.Linked v w ↔ v ≠ w ∧ g.Linked v w := by
    intro v w
    constructor
    · rintro ⟨key, hKey, rfl, rfl⟩
      exact ⟨((hEdges key).mp hKey).2, key, ((hEdges key).mp hKey).1, rfl, rfl⟩
    · rintro ⟨hNe, key, hKey, rfl, rfl⟩
      exact ⟨key, (hEdges key).mpr ⟨hKey, hNe⟩, rfl, rfl⟩
  refine ⟨g, g', hBuild, hRun, hAcyclic, fun v w => ?_, hSame⟩
  rw [hJoined, Joined, hLinked, hLinked, ne_comm (a := w), ← and_or_left]
  rfl

end DagreGraph
end FactorForth.Layout
