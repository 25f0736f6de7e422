import Lineage.Graph.Basic

/-!
# Ancestors and descendants

Breadth-first search, one distance at a time. `spread` adds every node that a step function leads
to within a number of steps; ancestors, descendants and the edges of a contracted graph are
instances of it. Ancestors and descendants follow dependency edges only.
-/

namespace Lineage.Graph

/-- Which way a traversal follows edges. -/
inductive Direction where
  /-- From a dependent to what it depends on. -/
  | backward
  /-- From a dependency to what depends on it. -/
  | forward
deriving DecidableEq, Repr

/-- Whether a traversal follows the edge from `u` to `v`. -/
def follows (g : Graph) (u v : NodeId) : Bool := (g.kind? u v).any EdgeKind.traversable

/-- The nodes one traversable edge away from `id` (`traversable_neighbors`). -/
def neighbours (g : Graph) (way : Direction) (id : NodeId) : List NodeId :=
  match way with
  | .forward => (g.successors id).filter fun v => g.follows id v
  | .backward => (g.predecessors id).filter fun u => g.follows u id

/-- The nodes that a step from `frontier` leads to and that were not met before, each once
(in `bfs`). -/
def nextFrontier (step : NodeId → List NodeId) (seen : NodeSet) (frontier : List NodeId) :
    List NodeId :=
  ((Std.ExtTreeSet.ofList (frontier.flatMap step)).filter fun v => !seen.contains v).toList

/-- Adds to `seen` what at most `rounds` steps from `frontier` lead to (in `bfs`). A node met before
is not left again. -/
def spread (step : NodeId → List NodeId) : Nat → NodeSet → List NodeId → NodeSet
  | 0, seen, _ => seen
  | _ + 1, seen, [] => seen
  | rounds + 1, seen, frontier =>
    let next := nextFrontier step seen frontier
    spread step rounds (seen.insertMany next) next

/-- How many steps a search has to take: no more than its bound, and no more than there are
nodes, since a shortest path meets none twice. -/
def searchDepth (g : Graph) (bound : Option Nat) : Nat :=
  match bound with
  | none => g.nodeCount
  | some k => min k g.nodeCount

/-- The nodes other than `id` at a distance of at most `bound` dependency edges from it (`bfs`). -/
def related (g : Graph) (way : Direction) (id : NodeId) (bound : Option Nat) : NodeSet :=
  (spread (g.neighbours way) (g.searchDepth bound) {id} [id]).erase id

/-- What `id` depends on, up to `bound` edges away (`ancestors`). -/
def ancestors (g : Graph) (id : NodeId) (bound : Option Nat) : Except GraphError NodeSet :=
  g.known id |>.map fun _ => g.related .backward id bound

/-- What depends on `id`, up to `bound` edges away (`descendants`). -/
def descendants (g : Graph) (id : NodeId) (bound : Option Nat) : Except GraphError NodeSet :=
  g.known id |>.map fun _ => g.related .forward id bound

/-- Whether `target` is a descendant of `source` (`has_path`). An unknown target is reported
first. -/
def hasPath (g : Graph) (source target : NodeId) : Except GraphError Bool := do
  g.known target
  return (← g.descendants source none).contains target

end Lineage.Graph
