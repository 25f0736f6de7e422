import Lineage.Graph.Basic

/-!
# Finding a cycle

Depth-first search over edges of every kind. Roots and successors are tried in identity order, so
one graph always yields the same cycle, whatever order it was built in.
-/

namespace Lineage.Graph

/-- The members of the search path from `id` on, oldest first; `path` has its newest member
first. -/
def pathFrom (path : List NodeId) (id : NodeId) : List NodeId :=
  (path.takeWhile (· != id) ++ [id]).reverse

/-- Explores everything that `id` leads to (in `find_cycle`). `path` leads from the root to just
before `id`, newest first, and the nodes of `finished` are known to lead to no cycle. The answer is
a cycle, as an error, or the nodes that are now known to lead to none. No path is longer than
`fuel`. -/
def explore (g : Graph) : Nat → List NodeId → NodeSet → NodeId → Except (List NodeId) NodeSet
  | 0, _, finished, _ => .ok finished
  | fuel + 1, path, finished, id => do
    let finished ← (g.successors id).foldlM (fun finished next =>
      if (id :: path).contains next then .error (pathFrom (id :: path) next)
      else if finished.contains next then .ok finished
      else explore g fuel (id :: path) finished next) finished
    return finished.insert id

/-- A cycle in path order, if the graph has one (`find_cycle`). A self-loop is a cycle of one
node. -/
def findCycle (g : Graph) : Option (List NodeId) :=
  let outcome : Except (List NodeId) NodeSet := g.nodes.foldlM (fun finished root =>
    if finished.contains root then .ok finished else g.explore g.nodeCount [] finished root) ∅
  match outcome with
  | .error members => some members
  | .ok _ => none

end Lineage.Graph
