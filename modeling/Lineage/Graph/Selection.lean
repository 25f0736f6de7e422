import Lineage.Graph.Reach

/-!
# Selections

The union of what several nodes lead to. One breadth-first search serves all selected nodes: each
node remembers the first two origins that reach it. Labels arrive by distance, so two are enough
to know whether an origin other than the node itself reaches it.

Selections are written by hand elsewhere, so identities that are not nodes are skipped.
-/

namespace Lineage.Graph

/-- One label that still has to be passed on: `origin` reaches `node` in `distance` steps. -/
structure Arrival where
  node : NodeId
  origin : NodeId
  distance : Nat
deriving DecidableEq, Repr

/-- A search from several origins (in `select_related`). -/
structure Labelling where
  /-- The origins that reach each node, nearest first, at most two. -/
  labels : Std.ExtTreeMap NodeId (List NodeId) compare
  /-- Labels to pass on, in order of arrival. -/
  queue : List Arrival

namespace Labelling

/-- The origins known to reach `id`. -/
def originsOf (l : Labelling) (id : NodeId) : List NodeId := l.labels.getD id []

/-- Records an arrival, to be passed on later. -/
def push (l : Labelling) (a : Arrival) : Labelling where
  labels := l.labels.insert a.node (l.originsOf a.node ++ [a.origin])
  queue := l.queue ++ [a]

/-- Each selected node is an origin at distance zero from itself. -/
def start (g : Graph) (selected : List NodeId) : Labelling :=
  selected.foldl (fun l id =>
    if g.contains id && !(l.originsOf id).contains id then l.push ⟨id, id, 0⟩ else l) ⟨∅, []⟩

/-- Passes a label on to one neighbour, unless that has it already or has two others
(in `select_related`). -/
def offer (l : Labelling) (a : Arrival) : Labelling :=
  let known := l.originsOf a.node
  if known.length < 2 && !known.contains a.origin then l.push a else l

/-- Takes the oldest arrival and passes its label on to the neighbours of its node, unless the bound
is reached (in `select_related`). -/
def step (g : Graph) (way : Direction) (bound : Option Nat) (l : Labelling) : Labelling :=
  match l.queue with
  | [] => l
  | a :: queue =>
    let rest := { l with queue }
    if bound.any (· ≤ a.distance) then rest
    else
      (g.neighbours way a.node).foldl
        (fun l next => l.offer ⟨next, a.origin, a.distance + 1⟩) rest

/-- Takes arrivals until none is left, at most `fuel` of them. -/
def run (g : Graph) (way : Direction) (bound : Option Nat) : Nat → Labelling → Labelling
  | 0, l => l
  | fuel + 1, l => if l.queue.isEmpty then l else run g way bound fuel (l.step g way bound)

/-- The nodes that an origin other than themselves reaches (in `select_related`). -/
def reached (l : Labelling) : NodeSet :=
  Std.ExtTreeSet.ofList
    ((l.labels.toList.filter fun (id, origins) => origins.any (· != id)).map (·.1))

end Labelling

/-- The nodes that some selected node other than themselves leads to within the bound
(`select_related`). Each node passes on at most two labels, so twice the number of nodes bounds the
search. -/
def selectRelated (g : Graph) (way : Direction) (selected : List NodeId) (bound : Option Nat) :
    NodeSet :=
  (Labelling.run g way bound (2 * g.nodeCount) (Labelling.start g selected)).reached

/-- What depends on the selected nodes (`select_children`). A selected node is among them only where
another selected node leads to it. -/
def selectChildren (g : Graph) (selected : List NodeId) (bound : Option Nat) : NodeSet :=
  g.selectRelated .forward selected bound

/-- What the selected nodes depend on (`select_parents`). -/
def selectParents (g : Graph) (selected : List NodeId) (bound : Option Nat) : NodeSet :=
  g.selectRelated .backward selected bound

/-- The selected nodes, all that depends on them, and all that any of those depends on
(`select_childrens_parents`). -/
def selectChildrensParents (g : Graph) (selected : List NodeId) : NodeSet :=
  let known := selected.filter g.contains
  let dependents := g.selectChildren known none |>.insertMany known
  g.selectParents dependents.toList none |>.insertMany dependents.toList

/-- What one edge of any kind leads to from a selected node (`select_successors`). -/
def selectSuccessors (g : Graph) (selected : List NodeId) : NodeSet :=
  Std.ExtTreeSet.ofList (selected.flatMap g.successors)

end Lineage.Graph
