import FactorForth.Layout.Acyclic
import FactorForth.Library.Numerals

/-! The edges that cycle removal has turned round come back: behind the layout each edge stands under the
key its caller gave it, with what the layout has stored at the edge it saw in its place. -/

namespace FactorForth.Layout
open FactorForth.Library
variable {F : Type}

/-- The order of names, of which the missing one is the least. -/
def nameLe : Option String → Option String → Prop
  | none, _ => True
  | some _, none => False
  | some a, some b => a ≤ b

instance : DecidableRel nameLe
  | none, _ => .isTrue trivial
  | some _, none => .isFalse id
  | some a, some b => inferInstanceAs (Decidable (a ≤ b))

def EdgeKey.Le (a b : EdgeKey) : Prop :=
  a.v < b.v ∨ a.v = b.v ∧ (a.w < b.w ∨ a.w = b.w ∧ nameLe a.name b.name)

instance : DecidableRel EdgeKey.Le := fun _ _ => inferInstanceAs (Decidable (_ ∨ _))

namespace DagreGraph

/-- One round of the loop of `acyclic::undo`. -/
def turnBack (g : DagreGraph F) (key : EdgeKey) : Option (DagreGraph F) :=
  match g.edges.lookup key with
  | none => some g
  | some label =>
    (g.removeEdgeByKey key).insertEdge ⟨key.w, key.v, label.forwardName⟩
      { label with forwardName := none, reversed := false }

def reversedKeys (g : DagreGraph F) : List EdgeKey :=
  ((g.edges.filter fun p => p.2.reversed).map Prod.fst).insertionSort EdgeKey.Le

/-- `acyclic::undo`. -/
def undoAcyclic (g : DagreGraph F) : Option (DagreGraph F) := g.reversedKeys.foldlM turnBack g

end DagreGraph

/-- A node of the diagram, with the nodes inside it. -/
inductive LayoutNode (F : Type) where
  | node (id : String) (width height : F) (parentId : Option String) (children : List (LayoutNode F))

structure LayoutEdge where
  sources : List String
  targets : List String
  label : Option String
  weight : UInt32

structure LayoutGraph (F : Type) where
  nodes : List (LayoutNode F)
  edges : List LayoutEdge

section
variable [Zero F]

mutual
/-- `add_nodes_recursive` on one node. -/
def LayoutNode.ops (parent : Option String) : LayoutNode F → List (Op F)
  | .node id width height parentId children =>
    .setNode id { NodeLabel.default with width := width, height := height } ::
      (((parentId.or parent).map (Op.setParent id)).toList ++ addNodes (some id) children)

def addNodes (parent : Option String) : List (LayoutNode F) → List (Op F)
  | [] => []
  | n :: ns => n.ops parent ++ addNodes parent ns
end

/-- An edge of the diagram, where it has both ends. -/
def LayoutEdge.op (labelSize : Option String → F × F) (e : LayoutEdge) : Option (Op F) := do
  let source ← e.sources.head?
  let target ← e.targets.head?
  let (width, height) := labelSize e.label
  return .setEdge ⟨source, target, none⟩
    { EdgeLabel.default with weight := e.weight.toBitVec.toInt, width := width, height := height }

/-- `to_dagre_graph`; `labelSize` estimates the size of a label. -/
def toDagreGraph (labelSize : Option String → F × F) (graph : LayoutGraph F) : Option (DagreGraph F) :=
  build (addNodes none graph.nodes ++ graph.edges.filterMap (LayoutEdge.op labelSize))

end

/-- What an edge is given when it is turned back. -/
def EdgeLabel.restored (label : EdgeLabel F) : EdgeLabel F := { label with forwardName := none, reversed := false }

/-- What an edge under `key` is given when it is turned round. -/
def EdgeLabel.marked (key : EdgeKey) (label : EdgeLabel F) : EdgeLabel F :=
  { label with forwardName := key.name, reversed := true }

/-- What cycle removal reads back from the label of an edge. -/
def EdgeLabel.flags (label : EdgeLabel F) : Bool × Option String := (label.reversed, label.forwardName)

namespace DagreGraph

/-- The edges of a graph as the layout is given it: none has a name or is marked as turned round. -/
def Plain (g : DagreGraph F) : Prop :=
  ∀ key label, g.edges.lookup key = some label →
    key.name = none ∧ label.reversed = false ∧ label.forwardName = none

/-- What the phases between cycle removal and its undoing leave of the edges of a graph: those there were,
with what cycle removal reads back, and beside them no others than loops. -/
structure KeepsEdges (h h' : DagreGraph F) : Prop where
  wellFormed : h'.WellFormed
  kept : ∀ key, Dict.contains h.edges key = true →
    (h'.edges.lookup key).map EdgeLabel.flags = (h.edges.lookup key).map EdgeLabel.flags
  added : ∀ key label, h'.edges.lookup key = some label → Dict.contains h.edges key = false →
    key.v = key.w ∧ label.reversed = false

/-- `h` is `g` with the first edge of each pair turned round into the second. -/
structure Turned (g h : DagreGraph F) (turned : List (EdgeKey × EdgeKey)) : Prop where
  wellFormed : h.WellFormed
  firsts : (turned.map Prod.fst).Nodup
  seconds : (turned.map Prod.snd).Nodup
  known : ∀ p ∈ turned, Dict.contains g.edges p.1 = true
  round : ∀ p ∈ turned, ∃ n ≤ h.edgeCounter, p.2 = revKey p.1 n
  gone : ∀ p ∈ turned, h.edges.lookup p.1 = none
  here : ∀ p ∈ turned, h.edges.lookup p.2 = (g.edges.lookup p.1).map (EdgeLabel.marked p.1)
  other : ∀ key, key ∉ turned.map Prod.fst → key ∉ turned.map Prod.snd →
    h.edges.lookup key = g.edges.lookup key

variable {g h : DagreGraph F} {turned : List (EdgeKey × EdgeKey)} {key : EdgeKey}

theorem revKey_inj {key key' : EdgeKey} {n n' : Nat} (h : revKey key n = revKey key' n') : n = n' := by
  have hName : "rev" ++ "_" ++ toString n = "rev" ++ "_" ++ toString n' :=
    Option.some.inj (congrArg EdgeKey.name h)
  exact toString_inj ((String.append_right_inj _).mp hName)

theorem Plain.flags (hPlain : g.Plain) (hKey : Dict.contains g.edges key = true) :
    (g.edges.lookup key).map EdgeLabel.flags = some (false, none) := by
  obtain ⟨label, hLabel⟩ := Dict.contains_iff.mp hKey
  obtain ⟨-, hMark, hName⟩ := hPlain key label hLabel
  rw [hLabel, Option.map_some, EdgeLabel.flags, hMark, hName]

theorem Plain.ne_revKey (hPlain : g.Plain) (hKey : Dict.contains g.edges key = true) (key' : EdgeKey)
    (n : Nat) : key ≠ revKey key' n := by
  rintro rfl
  obtain ⟨label, hLabel⟩ := Dict.contains_iff.mp hKey
  cases (hPlain _ label hLabel).1

theorem Turned.apart (hPlain : g.Plain) (hTurned : Turned g h turned) {p : EdgeKey × EdgeKey}
    (hp : p ∈ turned) (hKey : Dict.contains g.edges key = true) : key ≠ p.2 := by
  obtain ⟨n, -, hRev⟩ := hTurned.round p hp
  rw [hRev]
  exact hPlain.ne_revKey hKey p.1 n

theorem Turned.not_second (hPlain : g.Plain) (hTurned : Turned g h turned)
    (hKey : Dict.contains g.edges key = true) : key ∉ turned.map Prod.snd := by
  intro hIn
  obtain ⟨p, hp, hEq⟩ := List.mem_map.mp hIn
  exact hTurned.apart hPlain hp hKey hEq.symm

theorem Turned.turn (hPlain : g.Plain) (hTurned : Turned g h turned) (hKey : Dict.contains g.edges key = true) :
    ∃ h' turned', h.turn key = some h' ∧ Turned g h' turned' := by
  cases hLabel : h.edges.lookup key with
  | none =>
    refine ⟨h, turned, ?_, hTurned⟩
    unfold DagreGraph.turn
    rw [hLabel]
  | some label =>
    obtain ⟨h', hRun, hWell, -, hCounter, hEdges⟩ := turn_spec hTurned.wellFormed hLabel
    have hNotFirst : key ∉ turned.map Prod.fst := by
      intro hIn
      obtain ⟨p, hp, rfl⟩ := List.mem_map.mp hIn
      rw [hTurned.gone p hp] at hLabel
      cases hLabel
    have hNotSecond := hTurned.not_second hPlain hKey
    have hNew : revKey key (h.edgeCounter + 1) ∉ turned.map Prod.snd := by
      intro hIn
      obtain ⟨p, hp, hEq⟩ := List.mem_map.mp hIn
      obtain ⟨n, hn, hRev⟩ := hTurned.round p hp
      have hSame := revKey_inj (hRev.symm.trans hEq)
      omega
    have hLookup : ∀ k, h'.edges.lookup k = if revKey key (h.edgeCounter + 1) = k
        then some (label.marked key) else if key = k then none else h.edges.lookup k := by
      intro k
      rw [hEdges, Dict.lookup_insert, Dict.lookup_erase]
      rfl
    have hNameless : ∀ p ∈ turned, revKey key (h.edgeCounter + 1) ≠ p.1 := fun p hp =>
      (hPlain.ne_revKey (hTurned.known p hp) key _).symm
    refine ⟨h', (key, revKey key (h.edgeCounter + 1)) :: turned, hRun, hWell,
      List.nodup_cons.mpr ⟨hNotFirst, hTurned.firsts⟩, List.nodup_cons.mpr ⟨hNew, hTurned.seconds⟩,
      List.forall_mem_cons.mpr ⟨hKey, hTurned.known⟩, ?_, ?_, ?_, ?_⟩
    · refine List.forall_mem_cons.mpr ⟨⟨_, hCounter.ge, rfl⟩, fun p hp => ?_⟩
      obtain ⟨n, hn, hRev⟩ := hTurned.round p hp
      exact ⟨n, by omega, hRev⟩
    · refine List.forall_mem_cons.mpr ⟨?_, fun p hp => ?_⟩
      · rw [hLookup, if_neg (hPlain.ne_revKey hKey key _).symm, if_pos rfl]
      · rw [hLookup, if_neg (hNameless p hp), hTurned.gone p hp, ite_self]
    · refine List.forall_mem_cons.mpr ⟨?_, fun p hp => ?_⟩
      · rw [hLookup, if_pos rfl, ← hTurned.other key hNotFirst hNotSecond, hLabel]
        rfl
      · have hNe : revKey key (h.edgeCounter + 1) ≠ p.2 := fun hEq =>
          hNew (hEq ▸ List.mem_map_of_mem hp)
        have hNeKey : key ≠ p.2 := fun hEq => hNotSecond (hEq ▸ List.mem_map_of_mem hp)
        rw [hLookup, if_neg hNe, if_neg hNeKey, hTurned.here p hp]
    · intro k hFirst hSecond
      obtain ⟨hNeKey, hFirst⟩ := not_or.mp (List.mem_cons.not.mp hFirst)
      obtain ⟨hNeRev, hSecond⟩ := not_or.mp (List.mem_cons.not.mp hSecond)
      rw [hLookup, if_neg (Ne.symm hNeRev), if_neg (Ne.symm hNeKey), hTurned.other k hFirst hSecond]

theorem Turned.start (h : g.WellFormed) : Turned g g [] :=
  ⟨h, List.nodup_nil, List.nodup_nil, by simp, by simp, by simp, by simp, fun _ _ _ => rfl⟩

theorem makeAcyclic_turned (hWell : g.WellFormed) (hPlain : g.Plain)
    (hLoop : ∀ key, Dict.contains g.edges key = true → key.v ≠ key.w) :
    ∃ h turned, g.makeAcyclic = some h ∧ Turned g h turned := by
  obtain ⟨fas, order, hFas, -, hBack, -⟩ := dfsFas_spec hWell hLoop
  have hStep : ∀ h, ∀ key ∈ fas, (∃ turned, Turned g h turned) →
      ∃ h', DagreGraph.turn h key = some h' ∧ ∃ turned, Turned g h' turned := by
    rintro h key hIn ⟨turned, hTurned⟩
    obtain ⟨h', turned', hRun, hTurned'⟩ := hTurned.turn hPlain (hBack key hIn).1
    exact ⟨h', hRun, turned', hTurned'⟩
  obtain ⟨h, hRun, turned, hTurned⟩ := foldlM_keeps hStep ⟨[], .start hWell⟩
  refine ⟨h, turned, ?_, hTurned⟩
  rw [makeAcyclic, hFas]
  exact hRun

theorem mem_reversedKeys (hWell : g.WellFormed) :
    key ∈ g.reversedKeys ↔ ∃ label, g.edges.lookup key = some label ∧ label.reversed = true := by
  rw [reversedKeys, (List.perm_insertionSort _ _).mem_iff, List.mem_map]
  constructor
  · rintro ⟨⟨k, label⟩, hMem, rfl⟩
    obtain ⟨hMem, hMark⟩ := List.mem_filter.mp hMem
    exact ⟨label, hWell.distinct.lookup_of_mem hMem, hMark⟩
  · rintro ⟨label, hLabel, hMark⟩
    exact ⟨(key, label), List.mem_filter.mpr ⟨Dict.mem_of_lookup hLabel, hMark⟩, rfl⟩

theorem nodup_reversedKeys (hWell : g.WellFormed) : g.reversedKeys.Nodup :=
  (List.perm_insertionSort _ _).nodup_iff.mpr (hWell.distinct.sublist (List.filter_sublist.map Prod.fst))

/-- What cycle removal reads back of an edge that it has turned round. -/
theorem Turned.flags (hTurned : Turned g h turned) {p : EdgeKey × EdgeKey} (hp : p ∈ turned) :
    (h.edges.lookup p.2).map EdgeLabel.flags = some (true, p.1.name) := by
  obtain ⟨label, hLabel⟩ := Dict.contains_iff.mp (hTurned.known p hp)
  rw [hTurned.here p hp, hLabel]
  rfl

/-- And of every other edge. -/
theorem Turned.flags_other (hPlain : g.Plain) (hTurned : Turned g h turned)
    (hKey : Dict.contains h.edges key = true) (hNot : key ∉ turned.map Prod.snd) :
    (h.edges.lookup key).map EdgeLabel.flags = some (false, none) := by
  have hFirst : key ∉ turned.map Prod.fst := by
    intro hIn
    obtain ⟨p, hp, rfl⟩ := List.mem_map.mp hIn
    rw [Dict.contains, hTurned.gone p hp] at hKey
    cases hKey
  have hSame := hTurned.other key hFirst hNot
  rw [hSame]
  refine hPlain.flags ?_
  rw [Dict.contains, ← hSame]
  exact hKey

variable {h' u : DagreGraph F} {left : List EdgeKey}

/-- The marked edges behind the layout are those that were turned round before it. -/
theorem Turned.reversedKeys (hPlain : g.Plain) (hTurned : Turned g h turned) (hKeeps : KeepsEdges h h') :
    key ∈ h'.reversedKeys ↔ key ∈ turned.map Prod.snd := by
  rw [mem_reversedKeys hKeeps.wellFormed]
  constructor
  · rintro ⟨label, hLabel, hMark⟩
    by_contra hNot
    cases hOld : Dict.contains h.edges key with
    | false => exact absurd hMark (Bool.eq_false_iff.mp (hKeeps.added key label hLabel hOld).2)
    | true =>
      have hFlags := hKeeps.kept key hOld
      rw [hTurned.flags_other hPlain hOld hNot, hLabel] at hFlags
      have hSame : label.reversed = false := congrArg Prod.fst (Option.some.inj hFlags)
      exact absurd hMark (Bool.eq_false_iff.mp hSame)
  · intro hIn
    obtain ⟨p, hp, rfl⟩ := List.mem_map.mp hIn
    have hFlags := hTurned.flags hp
    have hOld : Dict.contains h.edges p.2 = true := by
      obtain ⟨label, hLabel, -⟩ := Option.map_eq_some_iff.mp hFlags
      exact Dict.contains_iff.mpr ⟨label, hLabel⟩
    obtain ⟨label, hLabel, hMark⟩ := Option.map_eq_some_iff.mp ((hKeeps.kept _ hOld).trans hFlags)
    exact ⟨label, hLabel, congrArg Prod.fst hMark⟩

/-- `u` is `h'` with all edges turned back but those that are left to do. -/
structure PartlyBack (h' : DagreGraph F) (turned : List (EdgeKey × EdgeKey)) (left : List EdgeKey)
    (u : DagreGraph F) : Prop where
  wellFormed : u.WellFormed
  nodes : u.nodes = h'.nodes
  waiting : ∀ p ∈ turned, p.2 ∈ left → u.edges.lookup p.2 = h'.edges.lookup p.2
  back : ∀ p ∈ turned, p.2 ∉ left →
    u.edges.lookup p.1 = (h'.edges.lookup p.2).map EdgeLabel.restored ∧ u.edges.lookup p.2 = none
  other : ∀ key, key ∉ turned.map Prod.fst → key ∉ turned.map Prod.snd →
    u.edges.lookup key = h'.edges.lookup key

/-- What turning an edge back does to the graph. -/
theorem turnBack_spec (hWell : g.WellFormed) {label : EdgeLabel F} (hKey : g.edges.lookup key = some label) :
    ∃ g', g.turnBack key = some g' ∧ g'.WellFormed ∧ g'.nodes = g.nodes ∧
      g'.edges = Dict.insert (Dict.erase g.edges key) ⟨key.w, key.v, label.forwardName⟩ label.restored := by
  obtain ⟨g', hRun, hg', hNodes, -, hEdges⟩ := swapEdge_spec hWell hKey (g.removeEdgeByKey key).edgeCounter
    label.forwardName label.restored
  refine ⟨g', ?_, hg', hNodes, hEdges⟩
  rw [turnBack, hKey]
  exact hRun

theorem PartlyBack.step (hPlain : g.Plain) (hTurned : Turned g h turned) {p : EdgeKey × EdgeKey}
    (hp : p ∈ turned) (hNot : p.2 ∉ left) {label : EdgeLabel F} (hLabel : h'.edges.lookup p.2 = some label)
    (hName : label.forwardName = p.1.name) (hBack : PartlyBack h' turned (p.2 :: left) u) :
    ∃ u', u.turnBack p.2 = some u' ∧ PartlyBack h' turned left u' := by
  obtain ⟨n, -, hRev⟩ := hTurned.round p hp
  obtain ⟨u', hRun, hWell, hNodes, hEdges⟩ :=
    turnBack_spec hBack.wellFormed ((hBack.waiting p hp List.mem_cons_self).trans hLabel)
  have hForward : (⟨p.2.w, p.2.v, label.forwardName⟩ : EdgeKey) = p.1 := by
    rw [hName, hRev]
    rfl
  have hLookup : ∀ k, u'.edges.lookup k = if p.1 = k then some label.restored
      else if p.2 = k then none else u.edges.lookup k := by
    intro k
    rw [hEdges, hForward, Dict.lookup_insert, Dict.lookup_erase]
  have hApart : ∀ q ∈ turned, p.1 ≠ q.2 := fun q hq => hTurned.apart hPlain hq (hTurned.known p hp)
  refine ⟨u', hRun, hWell, hNodes.trans hBack.nodes, fun q hq hIn => ?_, fun q hq hOut => ?_,
    fun k hFirst hSecond => ?_⟩
  · have hNe : p.2 ≠ q.2 := fun hEq => hNot (hEq ▸ hIn)
    rw [hLookup, if_neg (hApart q hq), if_neg hNe, hBack.waiting q hq (List.mem_cons_of_mem _ hIn)]
  · by_cases hEq : p = q
    · subst hEq
      refine ⟨?_, ?_⟩
      · rw [hLookup, if_pos rfl, hLabel]
        rfl
      · rw [hLookup, if_neg (hApart p hp), if_pos rfl]
    · have hFirst : p.1 ≠ q.1 := fun h => hEq (List.inj_on_of_nodup_map hTurned.firsts hp hq h)
      have hSecond : p.2 ≠ q.2 := fun h => hEq (List.inj_on_of_nodup_map hTurned.seconds hp hq h)
      have hNotLeft : q.2 ∉ p.2 :: left := fun hIn =>
        (List.mem_cons.mp hIn).elim (fun h => hSecond h.symm) hOut
      obtain ⟨hThere, hGone⟩ := hBack.back q hq hNotLeft
      have hCross : p.2 ≠ q.1 := (hTurned.apart hPlain hp (hTurned.known q hq)).symm
      refine ⟨?_, ?_⟩
      · rw [hLookup, if_neg hFirst, if_neg hCross, hThere]
      · rw [hLookup, if_neg (hApart q hq), if_neg hSecond, hGone]
  · have hNeFirst : p.1 ≠ k := fun hEq => hFirst (hEq ▸ List.mem_map_of_mem hp)
    have hNeSecond : p.2 ≠ k := fun hEq => hSecond (hEq ▸ List.mem_map_of_mem hp)
    rw [hLookup, if_neg hNeFirst, if_neg hNeSecond, hBack.other k hFirst hSecond]

theorem foldlM_turnBack (hPlain : g.Plain) (hTurned : Turned g h turned) (hKeeps : KeepsEdges h h')
    (left : List EdgeKey) : ∀ u, left.Nodup → (∀ key ∈ left, key ∈ turned.map Prod.snd) →
    PartlyBack h' turned left u → ∃ u', left.foldlM turnBack u = some u' ∧ PartlyBack h' turned [] u' := by
  induction left with
  | nil => exact fun u _ _ hBack => ⟨u, rfl, hBack⟩
  | cons key left ih =>
    intro u hNodup hKeys hBack
    obtain ⟨hNot, hRest⟩ := List.nodup_cons.mp hNodup
    obtain ⟨hKey, hOthers⟩ := List.forall_mem_cons.mp hKeys
    obtain ⟨p, hp, rfl⟩ := List.mem_map.mp hKey
    obtain ⟨old, hOld, -⟩ := Option.map_eq_some_iff.mp (hTurned.flags hp)
    obtain ⟨label, hLabel, hFlags⟩ := Option.map_eq_some_iff.mp
      ((hKeeps.kept _ (Dict.contains_iff.mpr ⟨old, hOld⟩)).trans (hTurned.flags hp))
    obtain ⟨u₁, hRun, hBack₁⟩ := hBack.step hPlain hTurned hp hNot hLabel (congrArg Prod.snd hFlags)
    rw [List.foldlM_cons, hRun]
    exact ih u₁ hRest hOthers hBack₁

theorem undoAcyclic_spec (hPlain : g.Plain) (hTurned : Turned g h turned) (hKeeps : KeepsEdges h h') :
    ∃ u, h'.undoAcyclic = some u ∧ PartlyBack h' turned [] u := by
  refine foldlM_turnBack hPlain hTurned hKeeps h'.reversedKeys h' (nodup_reversedKeys hKeeps.wellFormed)
    (fun key => (hTurned.reversedKeys hPlain hKeeps).mp)
    ⟨hKeeps.wellFormed, rfl, fun _ _ _ => rfl, fun p hp hNot => ?_, fun _ _ _ => rfl⟩
  exact absurd ((hTurned.reversedKeys hPlain hKeeps).mpr (List.mem_map_of_mem hp)) hNot

/-- Where the layout sees an edge. -/
def seenAs (turned : Dict EdgeKey EdgeKey) (key : EdgeKey) : EdgeKey := (turned.lookup key).getD key

theorem seenAs_of_mem (hTurned : Turned g h turned) {p : EdgeKey × EdgeKey} (hp : p ∈ turned) :
    seenAs turned p.1 = p.2 := by
  rw [seenAs, Dict.Distinct.lookup_of_mem hTurned.firsts hp]
  rfl

theorem seenAs_of_not_mem (hNot : key ∉ turned.map Prod.fst) : seenAs turned key = key := by
  rw [seenAs, Option.not_isSome_iff_eq_none.mp fun hIn => hNot (Dict.mem_keys.mpr hIn)]
  rfl

/-- An edge that the layout sees as it is given keeps the label it gets there. -/
theorem restored_of_flags {label : Option (EdgeLabel F)} (h : label.map EdgeLabel.flags = some (false, none)) :
    label.map EdgeLabel.restored = label := by
  obtain ⟨label, rfl, hFlags⟩ := Option.map_eq_some_iff.mp h
  obtain ⟨hMark, hName⟩ := Prod.mk.inj hFlags
  cases label
  cases hMark
  cases hName
  rfl

/-- The edges before cycle removal are those behind its undoing, each with what its place in the layout has
got. -/
theorem lookup_undone (hPlain : g.Plain) (hLoop : ∀ key, Dict.contains g.edges key = true → key.v ≠ key.w)
    (hTurned : Turned g h turned) (hKeeps : KeepsEdges h h') (hBack : PartlyBack h' turned [] u)
    (key : EdgeKey) :
    u.edges.lookup key = if Dict.contains g.edges key = true
      then (h'.edges.lookup (seenAs turned key)).map EdgeLabel.restored
      else if key.v = key.w then h'.edges.lookup key else none := by
  by_cases hFirst : key ∈ turned.map Prod.fst
  · obtain ⟨p, hp, rfl⟩ := List.mem_map.mp hFirst
    rw [if_pos (hTurned.known p hp), seenAs_of_mem hTurned hp]
    exact (hBack.back p hp List.not_mem_nil).1
  rw [seenAs_of_not_mem hFirst]
  by_cases hSecond : key ∈ turned.map Prod.snd
  · obtain ⟨p, hp, rfl⟩ := List.mem_map.mp hSecond
    obtain ⟨n, -, hRev⟩ := hTurned.round p hp
    have hNew : ¬Dict.contains g.edges p.2 = true := fun hIn => hTurned.apart hPlain hp hIn rfl
    have hNe : p.2.v ≠ p.2.w := by
      rw [hRev]
      exact (hLoop p.1 (hTurned.known p hp)).symm
    rw [if_neg hNew, if_neg hNe]
    exact (hBack.back p hp List.not_mem_nil).2
  · have hSame := hTurned.other key hFirst hSecond
    rw [hBack.other key hFirst hSecond]
    by_cases hIn : Dict.contains g.edges key = true
    · have hOld : Dict.contains h.edges key = true := by
        rw [Dict.contains, hSame]
        exact hIn
      rw [if_pos hIn, restored_of_flags]
      exact (hKeeps.kept key hOld).trans (hTurned.flags_other hPlain hOld hSecond)
    · rw [if_neg hIn]
      by_cases hEnds : key.v = key.w
      · rw [if_pos hEnds]
      · rw [if_neg hEnds]
        by_contra hSome
        obtain ⟨label, hLabel⟩ := Option.ne_none_iff_exists'.mp hSome
        refine hEnds (hKeeps.added key label hLabel ?_).1
        rw [Dict.contains, hSame]
        exact Bool.eq_false_iff.mpr hIn

/-- Cycle removal shows the layout each edge in one of its two directions. -/
theorem Turned.seenAs_spec (hPlain : g.Plain) (hTurned : Turned g h turned)
    (hKey : Dict.contains g.edges key = true) :
    (h.edges.lookup (seenAs turned key)).map EdgeLabel.restored = g.edges.lookup key ∧
      (seenAs turned key = key ∨ (seenAs turned key).v = key.w ∧ (seenAs turned key).w = key.v) := by
  by_cases hFirst : key ∈ turned.map Prod.fst
  · obtain ⟨p, hp, rfl⟩ := List.mem_map.mp hFirst
    obtain ⟨n, -, hRev⟩ := hTurned.round p hp
    rw [seenAs_of_mem hTurned hp, hTurned.here p hp, Option.map_map]
    refine ⟨restored_of_flags (hPlain.flags hKey), .inr ?_⟩
    rw [hRev]
    exact ⟨rfl, rfl⟩
  · rw [seenAs_of_not_mem hFirst, hTurned.other key hFirst (hTurned.not_second hPlain hKey)]
    exact ⟨restored_of_flags (hPlain.flags hKey), .inl rfl⟩

/-- It shows no two edges as one. -/
theorem Turned.seenAs_injOn (hPlain : g.Plain) (hTurned : Turned g h turned) :
    Set.InjOn (seenAs turned) {key | Dict.contains g.edges key = true} := by
  intro key hKey key' hKey' hSame
  by_cases hFirst : key ∈ turned.map Prod.fst
  · obtain ⟨p, hp, rfl⟩ := List.mem_map.mp hFirst
    rw [seenAs_of_mem hTurned hp] at hSame
    by_cases hFirst' : key' ∈ turned.map Prod.fst
    · obtain ⟨q, hq, rfl⟩ := List.mem_map.mp hFirst'
      rw [seenAs_of_mem hTurned hq] at hSame
      rw [List.inj_on_of_nodup_map hTurned.seconds hp hq hSame]
    · rw [seenAs_of_not_mem hFirst'] at hSame
      exact absurd hSame.symm (hTurned.apart hPlain hp hKey')
  · rw [seenAs_of_not_mem hFirst] at hSame
    by_cases hFirst' : key' ∈ turned.map Prod.fst
    · obtain ⟨q, hq, rfl⟩ := List.mem_map.mp hFirst'
      rw [seenAs_of_mem hTurned hq] at hSame
      exact absurd hSame (hTurned.apart hPlain hq hKey)
    · rw [seenAs_of_not_mem hFirst'] at hSame
      exact hSame

theorem KeepsEdges.refl (hWell : h.WellFormed) : KeepsEdges h h := by
  refine ⟨hWell, fun _ _ => rfl, fun key label hLabel hNew => ?_⟩
  rw [Dict.contains, hLabel] at hNew
  cases hNew

theorem Plain.removeSelfEdges (hWell : g.WellFormed) (hPlain : g.Plain) : g.removeSelfEdges.Plain := by
  intro key label hLabel
  rw [(removeSelfEdges_spec hWell).2] at hLabel
  split at hLabel
  · cases hLabel
  · exact hPlain key label hLabel

end DagreGraph

section Given
variable [Zero F] {g : DagreGraph F}

/-- What a diagram does with a graph: no edge that it sets has a name or is marked as turned round. -/
def Op.Given : Op F → Prop
  | .setNode _ _ => True
  | .setParent _ _ => True
  | .setEdge key label => key.name = none ∧ label.reversed = false ∧ label.forwardName = none
  | .removeNode _ => False
  | .removeEdge _ => False

mutual
theorem LayoutNode.ops_given (parent : Option String) : ∀ n : LayoutNode F, ∀ op ∈ n.ops parent, op.Given
  | .node id width height parentId children => by
    intro op hop
    rw [LayoutNode.ops] at hop
    rcases List.mem_cons.mp hop with rfl | hop
    · exact trivial
    · rcases List.mem_append.mp hop with hop | hop
      · obtain ⟨p, -, rfl⟩ := Option.map_eq_some_iff.mp (Option.mem_toList.mp hop)
        exact trivial
      · exact addNodes_given (some id) children op hop

theorem addNodes_given (parent : Option String) : ∀ ns : List (LayoutNode F), ∀ op ∈ addNodes parent ns, op.Given
  | [] => by
    intro op hop
    rw [addNodes] at hop
    cases hop
  | n :: ns => by
    intro op hop
    rw [addNodes] at hop
    rcases List.mem_append.mp hop with hop | hop
    · exact LayoutNode.ops_given parent n op hop
    · exact addNodes_given parent ns op hop
end

theorem LayoutEdge.op_given {labelSize : Option String → F × F} {e : LayoutEdge} {op : Op F}
    (h : e.op labelSize = some op) : op.Given := by
  rw [LayoutEdge.op] at h
  obtain ⟨source, -, h⟩ := Option.bind_eq_some_iff.mp h
  obtain ⟨target, -, h⟩ := Option.bind_eq_some_iff.mp h
  cases h
  exact ⟨rfl, rfl, rfl⟩

theorem apply_plain (hWell : g.WellFormed) (hPlain : g.Plain) {op : Op F} (hGiven : op.Given) :
    ∃ g', op.apply g = some g' ∧ g'.WellFormed ∧ g'.Plain := by
  obtain ⟨g', hRun, hWell'⟩ := DagreGraph.apply_wellFormed hWell op
  refine ⟨g', hRun, hWell', fun k l hLabel => ?_⟩
  cases op with
  | setNode v label =>
    cases hRun
    rw [DagreGraph.edges_setNode] at hLabel
    exact hPlain k l hLabel
  | setParent v parent =>
    cases hRun
    rw [DagreGraph.edges_ensureNode, DagreGraph.edges_ensureNode] at hLabel
    exact hPlain k l hLabel
  | setEdge key label =>
    obtain ⟨g₁, hRun₁, -, hEdges⟩ := hWell.setEdge key label
    cases hRun₁.symm.trans hRun
    rw [hEdges, Dict.lookup_insert] at hLabel
    split at hLabel
    · rename_i hEq
      cases hEq
      cases hLabel
      exact hGiven
    · exact hPlain k l hLabel
  | removeNode v => exact hGiven.elim
  | removeEdge key => exact hGiven.elim

/-- The graph of a diagram has neither names nor marks at its edges. -/
theorem toDagreGraph_plain (labelSize : Option String → F × F) (graph : LayoutGraph F) :
    ∃ g, toDagreGraph labelSize graph = some g ∧ g.WellFormed ∧ g.Plain := by
  have hGiven : ∀ op ∈ addNodes none graph.nodes ++ graph.edges.filterMap (LayoutEdge.op labelSize), op.Given := by
    intro op hop
    rcases List.mem_append.mp hop with hop | hop
    · exact addNodes_given none graph.nodes op hop
    · obtain ⟨e, -, hOp⟩ := List.mem_filterMap.mp hop
      exact LayoutEdge.op_given hOp
  have hNew : (DagreGraph.new : DagreGraph F).Plain := fun key label hLabel => by cases hLabel
  exact foldlM_keeps (fun g op hop hg => apply_plain hg.1 hg.2 (hGiven op hop))
    ⟨DagreGraph.new_wellFormed, hNew⟩

/-- What a diagram's edges are laid out as comes back to them: cycle removal shows the layout each edge
that is no loop, in one of its two directions and no two as one, and whatever the phases between store at
the edges they see, its undoing gives every edge, under the key the diagram has for it, what is stored where
it was seen. -/
theorem edges_turned_back (labelSize : Option String → F × F) (graph : LayoutGraph F) :
    ∃ g h seen, toDagreGraph labelSize graph = some g ∧ g.removeSelfEdges.makeAcyclic = some h ∧
      Set.InjOn seen {key | Dict.contains g.removeSelfEdges.edges key = true} ∧
      (∀ key, Dict.contains g.removeSelfEdges.edges key = true →
        (h.edges.lookup (seen key)).map EdgeLabel.restored = g.edges.lookup key ∧
          (seen key = key ∨ (seen key).v = key.w ∧ (seen key).w = key.v)) ∧
      h.KeepsEdges h ∧
      ∀ h', h.KeepsEdges h' → ∃ u, h'.undoAcyclic = some u ∧ u.nodes = h'.nodes ∧
        ∀ key, u.edges.lookup key = if Dict.contains g.removeSelfEdges.edges key = true
          then (h'.edges.lookup (seen key)).map EdgeLabel.restored
          else if key.v = key.w then h'.edges.lookup key else none := by
  obtain ⟨g, hBuild, hWell, hPlain⟩ := toDagreGraph_plain labelSize graph
  obtain ⟨hWell', hEdges⟩ := DagreGraph.removeSelfEdges_spec hWell
  have hPlain' := hPlain.removeSelfEdges hWell
  have hLoop : ∀ key, Dict.contains g.removeSelfEdges.edges key = true → key.v ≠ key.w := fun key hKey =>
    ((DagreGraph.contains_removeSelfEdges hWell key).mp hKey).2
  obtain ⟨h, turned, hRun, hTurned⟩ := DagreGraph.makeAcyclic_turned hWell' hPlain' hLoop
  refine ⟨g, h, DagreGraph.seenAs turned, hBuild, hRun, hTurned.seenAs_injOn hPlain', fun key hKey => ?_,
    .refl hTurned.wellFormed, fun h' hKeeps => ?_⟩
  · have hSame : g.removeSelfEdges.edges.lookup key = g.edges.lookup key := by
      rw [hEdges, if_neg (hLoop key hKey)]
    rw [← hSame]
    exact hTurned.seenAs_spec hPlain' hKey
  · obtain ⟨u, hUndo, hBack⟩ := DagreGraph.undoAcyclic_spec hPlain' hTurned hKeeps
    exact ⟨u, hUndo, hBack.nodes, DagreGraph.lookup_undone hPlain' hLoop hTurned hKeeps hBack⟩

end Given
end FactorForth.Layout
