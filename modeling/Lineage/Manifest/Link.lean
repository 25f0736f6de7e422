import Lineage.Graph.Reach
import Lineage.Manifest.Maps

/-!
# Linking

The dependency graph of a manifest, built in one pass over its members or by attaching one member
at a time, as after a partial re-parse. A dependency that the manifest does not hold is an error,
except for `linkKnown` and `linkKnown?`, which leave it out.
-/

namespace Lineage

/-- How a graph is built from a manifest. -/
inductive LinkStrategy where
  | bulk
  | incremental
deriving DecidableEq, Repr, Inhabited

namespace Manifest

/-! ## In one pass -/

/-- The graph of these members without edges (in `link_members`). -/
def memberGraph (members : List Member) : Graph :=
  members.foldl (fun g member => g.insertNode member.id) ∅

/-- Each declared dependency with the artifact that declares it, in order of declaration
(in `link_members`). -/
def declarations (members : List Member) : List (NodeId × NodeId) :=
  members.flatMap fun member => member.dependencies.map (·, member.id)

/-- All members, then all declared dependencies (`link_bulk`); the first that is not a member is
refused. -/
def linkBulk (m : Manifest) : Except GraphError Graph :=
  (declarations m.members).foldlM (fun g (parent, child) => g.addEdge parent child .dependency)
    (memberGraph m.members)

/-- All members, then the declared dependencies that are members (`link_known`). -/
def linkKnown (m : Manifest) : Graph :=
  (declarations m.members).foldl (fun g (parent, child) => g.insertEdge parent child .dependency)
    (memberGraph m.members)

/-- The same, where an edge between nodes that are not there is an error (`link_members`). -/
def linkKnown? (m : Manifest) : Except GraphError Graph :=
  (declarations m.members).foldlM (fun g (parent, child) =>
      if g.contains parent then g.addEdge parent child .dependency else .ok g)
    (memberGraph m.members)

/-! ## One member at a time -/

/-- Adds an edge to `id` from each of its parents that the graph holds (in `attach`). A parent that
is only known to the manifest is passed over; the first that neither holds ends the work. -/
def attachParents (isMember : NodeId → Bool) (id : NodeId) :
    List NodeId → Graph → Graph × Except GraphError Unit
  | [], g => (g, .ok ())
  | parent :: parents, g =>
    if g.contains parent then
      attachParents isMember id parents (g.insertEdge parent id .dependency)
    else if isMember parent then attachParents isMember id parents g
    else (g, .error (.unknownNode parent))

/-- Adds an edge from `id` to each of its children that the graph holds (in `attach`). -/
def attachChildren (id : NodeId) (children : List NodeId) (g : Graph) : Graph :=
  children.foldl (fun g child => g.insertEdge id child .dependency) g

/-- Inserts `id` anew, with edges from its parents and to its children as far as the graph holds
them (`attach`). The graph keeps what was done before an error. -/
def attach (parents children : Collection (List NodeId)) (id : NodeId) (g : Graph) :
    Graph × Except GraphError Unit :=
  match attachParents parents.contains id (parents.getD id []) ((g.eraseNode id).insertNode id) with
  | (g, .ok ()) => (attachChildren id (children.getD id []) g, .ok ())
  | failed => failed

/-- Attaches the members in order, up to the first error (`link_incremental`). -/
def linkIncremental (m : Manifest) : Except GraphError Graph :=
  let parents := m.parentMap
  let children := m.childMap
  m.members.foldlM (fun g member =>
    match attach parents children member.id g with
    | (g, .ok ()) => .ok g
    | (_, .error e) => .error e) ∅

/-- Brings one artifact of a graph up to date with the manifest (`relink`): it is attached anew, or
removed if the manifest no longer holds it. Test edges that touch it are lost. -/
def relink (m : Manifest) (id : NodeId) (g : Graph) : Graph × Except GraphError Unit :=
  let parents := m.parentMap
  if parents.contains id then attach parents m.childMap id g else (g.eraseNode id, .ok ())

/-- The graph of a manifest, built this way (`link`). -/
def link (m : Manifest) : LinkStrategy → Except GraphError Graph
  | .bulk => m.linkBulk
  | .incremental => m.linkIncremental

/-- The text of a graph error that came up while linking. -/
def linkMessage (e : GraphError) : String := "Failed to link dependency graph: " ++ e.message

/-! ## Test edges -/

def isTest (m : Manifest) (id : NodeId) : Bool :=
  (m.nodes[id]?).any (·.resourceType == .test)

/-- Whether a test declares dependencies and all of them are among these ancestors
(in `add_test_edges`). -/
def covered (m : Manifest) (ancestors : NodeSet) (test : NodeId) : Bool :=
  (m.nodes[test]?).any fun n =>
    !n.dependsOn.nodes.isEmpty && n.dependsOn.nodes.all ancestors.contains

/-- The tests among the successors of these ancestors that have to run before the artifact they are
the ancestors of (in `add_test_edges`): the tests that are no ancestors themselves and depend on
ancestors only. -/
def gates (m : Manifest) (ancestors : NodeSet) (successors : List NodeId) : List NodeId :=
  let attached := Std.ExtTreeSet.ofList
    (successors.filter fun t => m.isTest t && !ancestors.contains t)
  attached.toList.filter (m.covered ancestors)

/-- The nodes that tests can have to run before. -/
def gated (m : Manifest) (g : Graph) : List NodeId :=
  m.nodes.keys.filter fun id => !m.isTest id && g.contains id

/-- The tests that have to run before `id` (in `add_test_edges`). -/
def testsBefore (m : Manifest) (g : Graph) (id : NodeId) : List NodeId :=
  let ancestors := g.related .backward id none
  m.gates ancestors (ancestors.toList.flatMap g.successors)

/-- The edges by which tests run before the nodes that depend on what they test
(in `add_test_edges`). -/
def testEdges (m : Manifest) (g : Graph) : List (NodeId × NodeId) :=
  (m.gated g).flatMap fun id => (m.testsBefore g id).map (·, id)

/-- Adds the test edges (`add_test_edges`); the answer says how many there are. -/
def addTestEdges (m : Manifest) (g : Graph) : Nat × Graph :=
  let edges := m.testEdges g
  (edges.length, edges.foldl (fun g (test, id) => g.insertEdge test id .parentTest) g)

/-! The same, where an unknown node is an error. -/

def testsBefore? (m : Manifest) (g : Graph) (id : NodeId) : Except GraphError (List NodeId) := do
  let ancestors ← g.ancestors id none
  let successors ← ancestors.toList.mapM g.successors?
  return m.gates ancestors successors.flatten

def testEdges? (m : Manifest) (g : Graph) : Except GraphError (List (NodeId × NodeId)) := do
  let edges ← (m.gated g).mapM fun id => do return (← m.testsBefore? g id).map (·, id)
  return edges.flatten

/-- Adds the test edges, unless a node is unknown (`add_test_edges`). -/
def addTestEdges? (m : Manifest) (g : Graph) : Except GraphError (Nat × Graph) := do
  let edges ← m.testEdges? g
  let tested ← edges.foldlM (fun g (test, id) => g.addEdge test id .parentTest) g
  return (edges.length, tested)

end Manifest

end Lineage
