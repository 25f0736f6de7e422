import Std.Data.ExtTreeMap
import Std.Data.ExtTreeSet

/-!
# Dependency graphs

A graph holds a finite set of artifact identities and, for some ordered pairs of them, an edge
with a kind. An edge points from a dependency to its dependent. There is at most one edge per
ordered pair, and both ends of an edge are nodes: `Graph.closed` keeps that in the type.

Identities are compared by code point, and every list a graph answers with is in that order.
-/

namespace Lineage

/-- The name of an artifact, such as `model.shop.orders`. -/
abbrev NodeId := String

/-- A finite set of identities. -/
abbrev NodeSet := Std.ExtTreeSet NodeId compare

/-- What an edge stands for. -/
inductive EdgeKind where
  /-- The target was declared to depend on the source. -/
  | dependency
  /-- A test that has to run before the target; traversals do not follow it. -/
  | parentTest
deriving DecidableEq, Repr, Inhabited

def EdgeKind.all : List EdgeKind := [.dependency, .parentTest]

/-- The written form of a kind (`as_str`). -/
def EdgeKind.name : EdgeKind → String
  | .dependency => ""
  | .parentTest => "parent_test"

def EdgeKind.ofName? (s : String) : Option EdgeKind := EdgeKind.all.find? (·.name == s)

/-- Whether ancestor and descendant queries follow edges of this kind (`is_traversable`). -/
def EdgeKind.traversable : EdgeKind → Bool
  | .dependency => true
  | .parentTest => false

/-- Why a graph operation has no answer. -/
inductive GraphError where
  | unknownNode (id : NodeId)
  | cycle (members : List NodeId)
deriving DecidableEq, Repr

/-- A cycle as an arrow chain that returns to its first member (`format_cycle`). -/
def arrowChain (members : List NodeId) : String :=
  " --> ".intercalate (members ++ members.take 1)

def GraphError.message : GraphError → String
  | .unknownNode id => "Unknown node: " ++ id
  | .cycle [] => "Dependency cycle detected: <unknown>"
  | .cycle members => "Dependency cycle detected: " ++ arrowChain members

/-- The edges that leave one node, by target. -/
abbrev Row := Std.ExtTreeMap NodeId EdgeKind compare

/-- A directed graph with at most one edge per ordered pair of nodes (`DependencyGraph`). -/
structure Graph where
  /-- One row per node. -/
  rows : Std.ExtTreeMap NodeId Row compare
  /-- Every edge ends in a node. -/
  closed : ∀ (u : NodeId) (row : Row) (v : NodeId), rows[u]? = some row → v ∈ row → v ∈ rows
deriving DecidableEq

namespace Graph

/-! ## Lookup -/

def contains (g : Graph) (id : NodeId) : Bool := g.rows.contains id

/-- The kind of the edge from `u` to `v`, if there is one (`edge_kind`). -/
def kind? (g : Graph) (u v : NodeId) : Option EdgeKind := g.rows[u]?.bind (·[v]?)

def nodes (g : Graph) : List NodeId := g.rows.keys

/-- Every edge with its kind, by source and then by target (`edges`). -/
def edges (g : Graph) : List (NodeId × NodeId × EdgeKind) :=
  g.rows.toList.flatMap fun (u, row) => row.toList.map fun (v, kind) => (u, v, kind)

def nodeCount (g : Graph) : Nat := g.rows.size

def edgeCount (g : Graph) : Nat := g.rows.foldl (fun n _ row => n + row.size) 0

def isEmpty (g : Graph) : Bool := g.nodeCount == 0

/-- The targets of the edges that leave `u` (in `successors`); none for an unknown node. -/
def successors (g : Graph) (u : NodeId) : List NodeId := (g.rows[u]?.getD ∅).keys

/-- The sources of the edges that enter `v` (in `predecessors`). -/
def predecessors (g : Graph) (v : NodeId) : List NodeId :=
  g.nodes.filter fun u => (g.kind? u v).isSome

/-- Refuses an identity that is not a node (`index`). -/
def known (g : Graph) (id : NodeId) : Except GraphError Unit :=
  if g.contains id then .ok () else .error (.unknownNode id)

/-- The targets of the edges that leave a node, unless it is unknown (`successors`). -/
def successors? (g : Graph) (u : NodeId) : Except GraphError (List NodeId) :=
  g.known u |>.map fun _ => g.successors u

/-- The sources of the edges that enter a node, unless it is unknown (`predecessors`). -/
def predecessors? (g : Graph) (v : NodeId) : Except GraphError (List NodeId) :=
  g.known v |>.map fun _ => g.predecessors v

/-- How many edges enter `v` (`in_degree`). -/
def inDegree (g : Graph) (v : NodeId) : Except GraphError Nat :=
  g.known v |>.map fun _ => (g.predecessors v).length

/-- How many edges leave `u` (`out_degree`). -/
def outDegree (g : Graph) (u : NodeId) : Except GraphError Nat :=
  g.known u |>.map fun _ => (g.rows[u]?.getD ∅).size

/-! ## Change -/

def empty : Graph where
  rows := ∅
  closed := by simp

instance : EmptyCollection Graph := ⟨empty⟩
instance : Inhabited Graph := ⟨empty⟩

/-- The graph with `id` among its nodes (`ensure_node`); a new node has no edges. -/
def insertNode (g : Graph) (id : NodeId) : Graph where
  rows := g.rows.insertIfNew id ∅
  closed u row v hu hv := by
    rw [Std.ExtTreeMap.getElem?_insertIfNew] at hu
    split at hu
    · cases hu
      exact absurd hv Std.ExtTreeMap.not_mem_empty
    · exact Std.ExtTreeMap.mem_insertIfNew.2 (.inr (g.closed u row v hu hv))

/-- The graph without `id` and without the edges that touch it (in `remove_node`). -/
def eraseNode (g : Graph) (id : NodeId) : Graph where
  rows := (g.rows.erase id).map fun _ row => row.erase id
  closed u row v hu hv := by
    rw [Std.ExtTreeMap.getElem?_map] at hu
    obtain ⟨row', hrow', rfl⟩ := Option.map_eq_some_iff.1 hu
    rw [Std.ExtTreeMap.getElem?_erase] at hrow'
    obtain ⟨hne, hmem⟩ := Std.ExtTreeMap.mem_erase.1 hv
    split at hrow'
    · cases hrow'
    · exact Std.ExtTreeMap.mem_map.2
        (Std.ExtTreeMap.mem_erase.2 ⟨hne, g.closed u row' v hrow' hmem⟩)

/-- The graph with an edge of this kind from `u` to `v`, in place of any other between them
(`upsert_edge`). Nothing changes unless both ends are nodes. -/
def insertEdge (g : Graph) (u v : NodeId) (kind : EdgeKind) : Graph :=
  if h : v ∈ g.rows then
    { rows := g.rows.modify u (·.insert v kind)
      closed := fun u' row v' hu hv => by
        rw [Std.ExtTreeMap.mem_modify]
        rw [Std.ExtTreeMap.getElem?_modify] at hu
        split at hu
        · obtain ⟨row', hrow', rfl⟩ := Option.map_eq_some_iff.1 hu
          rcases Std.ExtTreeMap.mem_insert.1 hv with hv | hv
          · rwa [← Std.LawfulEqOrd.eq_of_compare hv]
          · exact g.closed _ row' v' hrow' hv
        · exact g.closed u' row v' hu hv }
  else g

/-- The graph without an edge from `u` to `v` (in `remove_edge`). -/
def eraseEdge (g : Graph) (u v : NodeId) : Graph where
  rows := g.rows.modify u (·.erase v)
  closed u' row v' hu hv := by
    rw [Std.ExtTreeMap.mem_modify]
    rw [Std.ExtTreeMap.getElem?_modify] at hu
    split at hu
    · obtain ⟨row', hrow', rfl⟩ := Option.map_eq_some_iff.1 hu
      exact g.closed _ row' v' hrow' (Std.ExtTreeMap.mem_erase.1 hv).2
    · exact g.closed u' row v' hu hv

/-- Adds a node (`add_node`); the answer says whether it is new. -/
def addNode (g : Graph) (id : NodeId) : Bool × Graph := (!g.contains id, g.insertNode id)

/-- Removes a node and the edges that touch it (`remove_node`); the answer says whether it was
there. -/
def removeNode (g : Graph) (id : NodeId) : Bool × Graph := (g.contains id, g.eraseNode id)

/-- Adds an edge between two nodes, or gives the edge between them another kind (`add_edge`). -/
def addEdge (g : Graph) (u v : NodeId) (kind : EdgeKind) : Except GraphError Graph := do
  g.known u
  g.known v
  return g.insertEdge u v kind

/-- Removes the edge between two nodes (`remove_edge`); the answer says whether there was one. -/
def removeEdge (g : Graph) (u v : NodeId) : Except GraphError (Bool × Graph) := do
  g.known u
  g.known v
  return ((g.kind? u v).isSome, g.eraseEdge u v)

/-- The graph of these dependencies, each written from the dependency to its dependent
(`from_edges`). -/
def ofEdges (pairs : List (NodeId × NodeId)) : Graph :=
  pairs.foldl (fun g (u, v) => ((g.insertNode u).insertNode v).insertEdge u v .dependency) ∅

end Graph

end Lineage
