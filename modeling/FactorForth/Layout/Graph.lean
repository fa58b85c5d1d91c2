import FactorForth.Library.Dict
import Mathlib.Algebra.Order.Ring.Int
import Mathlib.Data.List.Sort
import Mathlib.Data.String.Basic

/-! The graph that the layered layout of a diagram works on: labels of nodes and edges in hash maps, and
for each node the lists of the edges out of it and into it. Lengths and coordinates are of a type `F`. -/

namespace FactorForth.Layout
open FactorForth.Library
variable {F : Type}

structure EdgeKey where
  v : String
  w : String
  name : Option String
deriving DecidableEq, Repr

structure EdgeLabel (F : Type) where
  minlen : Int
  weight : Int
  width : F
  height : F
  x : Option F
  y : Option F
  points : List (F × F)
  labelpos : String
  reversed : Bool
  forwardName : Option String
  labelRank : Option Int

def EdgeLabel.default [Zero F] : EdgeLabel F := ⟨1, 1, 0, 0, none, none, [], "r", false, none, none⟩

structure NodeLabel (F : Type) where
  width : F
  height : F
  x : Option F
  y : Option F
  rank : Option Int
  dummy : Option String
  labelpos : Option String
  edgeLabel : Option (EdgeLabel F)
  edgeObj : Option EdgeKey
  selfEdges : List (EdgeKey × EdgeLabel F)

def NodeLabel.default [Zero F] : NodeLabel F := ⟨0, 0, none, none, none, none, none, none, none, []⟩

abbrev EdgeLists : Type := Dict String (List EdgeKey)

namespace EdgeLists

def at_ (lists : EdgeLists) (v : String) : List EdgeKey := (lists.lookup v).getD []

/-- `get_mut(v).retain(|k| k != key)`. -/
def retain (lists : EdgeLists) (v : String) (key : EdgeKey) : EdgeLists :=
  match lists.lookup v with
  | some keys => Dict.insert lists v (keys.filter fun k => k != key)
  | none => lists

/-- `get_mut(v).unwrap().push(key)`: nothing where that panics. -/
def push (lists : EdgeLists) (v : String) (key : EdgeKey) : Option EdgeLists :=
  (lists.lookup v).map fun keys => Dict.insert lists v (keys ++ [key])

end EdgeLists

structure DagreGraph (F : Type) where
  nodes : Dict String (NodeLabel F)
  edges : Dict EdgeKey (EdgeLabel F)
  outEdges : EdgeLists
  inEdges : EdgeLists
  dummyChains : List String
  edgeCounter : Nat

namespace DagreGraph

def new : DagreGraph F := ⟨[], [], [], [], [], 0⟩

/-- The sorted ids of the nodes. -/
def nodeIds (g : DagreGraph F) : List String := (g.nodes.map Prod.fst).insertionSort (· ≤ ·)

def nodeCount (g : DagreGraph F) : Nat := g.nodes.length

def node (g : DagreGraph F) (v : String) : Option (NodeLabel F) := g.nodes.lookup v

def edgeByKey (g : DagreGraph F) (key : EdgeKey) : Option (EdgeLabel F) := g.edges.lookup key

def outEdgesOf (g : DagreGraph F) (v : String) : List EdgeKey := g.outEdges.at_ v

def inEdgesOf (g : DagreGraph F) (v : String) : List EdgeKey := g.inEdges.at_ v

def setNode (g : DagreGraph F) (v : String) (label : NodeLabel F) : DagreGraph F :=
  if Dict.contains g.nodes v then { g with nodes := Dict.insert g.nodes v label }
  else
    { g with
      nodes := Dict.insert g.nodes v label
      outEdges := Dict.insert g.outEdges v []
      inEdges := Dict.insert g.inEdges v [] }

def removeEdgeByKey (g : DagreGraph F) (key : EdgeKey) : DagreGraph F :=
  match g.edges.lookup key with
  | none => g
  | some _ =>
    { g with
      edges := Dict.erase g.edges key
      outEdges := g.outEdges.retain key.v key
      inEdges := g.inEdges.retain key.w key }

/-- The edges out of a removed node. -/
def dropOut (g : DagreGraph F) (keys : List EdgeKey) : DagreGraph F :=
  keys.foldl
    (fun g key => { g with edges := Dict.erase g.edges key, inEdges := g.inEdges.retain key.w key }) g

/-- The edges into it. -/
def dropInto (g : DagreGraph F) (keys : List EdgeKey) : DagreGraph F :=
  keys.foldl
    (fun g key => { g with edges := Dict.erase g.edges key, outEdges := g.outEdges.retain key.v key }) g

def removeNode (g : DagreGraph F) (v : String) : DagreGraph F :=
  if Dict.contains g.nodes v then
    let g₁ := dropOut { g with nodes := Dict.erase g.nodes v, outEdges := Dict.erase g.outEdges v }
      (g.outEdgesOf v)
    dropInto { g₁ with inEdges := Dict.erase g₁.inEdges v } (g₁.inEdgesOf v)
  else g

def ensureNode [Zero F] (g : DagreGraph F) (v : String) : DagreGraph F :=
  if Dict.contains g.nodes v then g else g.setNode v .default

/-- An edge between nodes that are there. -/
def insertEdge (g : DagreGraph F) (key : EdgeKey) (label : EdgeLabel F) : Option (DagreGraph F) := do
  let outEdges ← g.outEdges.push key.v key
  let inEdges ← g.inEdges.push key.w key
  return { g with edges := Dict.insert g.edges key label, outEdges := outEdges, inEdges := inEdges }

/-- `set_edge`, and `set_edge_with_name` where the key has a name. -/
def setEdge [Zero F] (g : DagreGraph F) (key : EdgeKey) (label : EdgeLabel F) : Option (DagreGraph F) :=
  ((g.ensureNode key.v).ensureNode key.w).insertEdge key label

def uniqueId (g : DagreGraph F) (start : String) : String × DagreGraph F :=
  (start ++ "_" ++ toString (g.edgeCounter + 1), { g with edgeCounter := g.edgeCounter + 1 })

/-- That an edge leads from the one node to the other. -/
def Linked (g : DagreGraph F) (v w : String) : Prop :=
  ∃ key, Dict.contains g.edges key = true ∧ key.v = v ∧ key.w = w

/-- The lists of edges belong to the nodes that there are, and have the edges that there are. -/
structure WellFormed (g : DagreGraph F) : Prop where
  distinct : Dict.Distinct g.edges
  outLists : ∀ v, Dict.contains g.outEdges v = Dict.contains g.nodes v
  inLists : ∀ v, Dict.contains g.inEdges v = Dict.contains g.nodes v
  out : ∀ v key, key ∈ g.outEdgesOf v ↔ key.v = v ∧ Dict.contains g.edges key = true
  into : ∀ w key, key ∈ g.inEdgesOf w ↔ key.w = w ∧ Dict.contains g.edges key = true

end DagreGraph

/-- What the callers of the layout do with a graph. -/
inductive Op (F : Type) where
  | setNode (v : String) (label : NodeLabel F)
  | setEdge (key : EdgeKey) (label : EdgeLabel F)
  | setParent (v parent : String)
  | removeNode (v : String)
  | removeEdge (key : EdgeKey)

/-- Of `set_parent` only that both nodes are there then. -/
def Op.apply [Zero F] (op : Op F) (g : DagreGraph F) : Option (DagreGraph F) :=
  match op with
  | .setNode v label => some (g.setNode v label)
  | .setEdge key label => g.setEdge key label
  | .setParent v parent => some ((g.ensureNode v).ensureNode parent)
  | .removeNode v => some (g.removeNode v)
  | .removeEdge key => some (g.removeEdgeByKey key)

def build [Zero F] (ops : List (Op F)) : Option (DagreGraph F) :=
  ops.foldlM (fun g op => op.apply g) .new

end FactorForth.Layout
