import Lineage.Graph.Reach

/-!
# Graphs on a part of the nodes

`induce` keeps the edges between the nodes that stay. `contract` also replaces each path through
nodes that go by an edge, so that what could reach what before still can.
-/

namespace Lineage.Graph

/-- The chosen identities that are nodes (`member_indices`). -/
def members (g : Graph) (ids : List NodeId) : NodeSet :=
  Std.ExtTreeSet.ofList (ids.filter g.contains)

/-- The graph of these nodes without edges. -/
def ofNodes (ids : NodeSet) : Graph := ids.toList.foldl insertNode ∅

/-- The targets of the edges that leave `u` (in `reachable_members`); with `dependenciesOnly`, of
those that traversals follow. -/
def targets (g : Graph) (dependenciesOnly : Bool) (u : NodeId) : List NodeId :=
  if dependenciesOnly then g.neighbours .forward u else g.successors u

/-- The members that a path from `u` leads to whose inner nodes are all non-members
(`reachable_members`). -/
def reachedMembers (g : Graph) (members : NodeSet) (dependenciesOnly : Bool) (u : NodeId) :
    NodeSet :=
  let first := g.targets dependenciesOnly u
  let onward := fun v => if members.contains v then [] else g.targets dependenciesOnly v
  (spread onward g.nodeCount (Std.ExtTreeSet.ofList first) first).filter members.contains

/-- The edges that leave `u` once the non-members are contracted away (in `get_subset_graph`): a
dependency where some path consists of dependencies only, a test edge otherwise. -/
def contractedRow (g : Graph) (members : NodeSet) (u : NodeId) : List (NodeId × EdgeKind) :=
  let viaDependencies := g.reachedMembers members true u
  (g.reachedMembers members false u).toList.map fun v =>
    (v, if viaDependencies.contains v then .dependency else .parentTest)

/-- The graph on the chosen nodes with an edge wherever this graph has a path between two of them
whose inner nodes were not chosen (`get_subset_graph`). Unknown identities are ignored. -/
def contract (g : Graph) (ids : List NodeId) : Graph :=
  let members := g.members ids
  members.toList.foldl (fun result u =>
    (g.contractedRow members u).foldl (fun result (v, kind) => result.insertEdge u v kind) result)
    (ofNodes members)

/-- The graph on the chosen nodes with the edges between them (`subgraph`). Unknown identities are
ignored. -/
def induce (g : Graph) (ids : List NodeId) : Graph :=
  let members := g.members ids
  (g.edges.filter fun (u, v, _) => members.contains u && members.contains v).foldl
    (fun result (u, v, kind) => result.insertEdge u v kind) (ofNodes members)

end Lineage.Graph
