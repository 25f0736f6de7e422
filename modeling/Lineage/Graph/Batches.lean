import Lineage.Graph.Cycle

/-!
# Batches of independent nodes

A countdown: each node counts the edges that enter it from nodes not yet emitted. A round emits
the nodes whose count is zero and lowers the count of every successor, once per edge. The nodes
that reach zero in a round are the next batch. Edges of every kind count.
-/

namespace Lineage.Graph

/-- Where a countdown stands at the start of a round (in `topological_sort_grouped`). -/
structure Countdown where
  /-- For each node, the edges that enter it from nodes not yet emitted. -/
  counts : Std.ExtTreeMap NodeId Nat compare
  /-- The nodes that the round will emit. -/
  ready : List NodeId
  /-- What was emitted before, latest batch first. -/
  emitted : List (List NodeId)

namespace Countdown

/-- Lowers the count of one node (in `topological_sort_grouped`); a node that reaches zero becomes
ready. -/
def release (state : Std.ExtTreeMap NodeId Nat compare × List NodeId) (v : NodeId) :
    Std.ExtTreeMap NodeId Nat compare × List NodeId :=
  match state.1[v]? with
  | none => state
  | some count => (state.1.insert v (count - 1), if count = 1 then state.2 ++ [v] else state.2)

/-- The start: every node counts its incoming edges, and those without any are ready. -/
def start (g : Graph) : Countdown where
  counts := g.rows.map fun v _ => (g.predecessors v).length
  ready := g.nodes.filter fun v => (g.predecessors v).isEmpty
  emitted := []

/-- Emits the ready nodes, in identity order, and releases what depends on them
(in `topological_sort_grouped`). -/
def round (g : Graph) (c : Countdown) : Countdown :=
  let batch := c.ready.mergeSort (· ≤ ·)
  let (counts, ready) := (batch.flatMap g.successors).foldl release (c.counts, [])
  { counts, ready, emitted := batch :: c.emitted }

/-- Repeats rounds until nothing is ready, at most `rounds` times
(in `topological_sort_grouped`). -/
def run (g : Graph) : Nat → Countdown → Countdown
  | 0, c => c
  | rounds + 1, c => if c.ready.isEmpty then c else run g rounds (c.round g)

/-- The batches in the order they were emitted. -/
def batches (c : Countdown) : List (List NodeId) := c.emitted.reverse

end Countdown

/-- Groups the nodes into batches (`topological_sort_grouped`): each holds, in identity order, every
node whose predecessors were all emitted in earlier ones. A graph with a cycle has no batches. -/
def batches (g : Graph) : Except GraphError (List (List NodeId)) :=
  let final := Countdown.run g g.nodeCount (Countdown.start g)
  if final.emitted.flatten.length = g.nodeCount then .ok final.batches
  else .error (.cycle (g.findCycle.getD []))

end Lineage.Graph
