import Lineage.Manifest.Basic

/-!
# Derived maps

Who depends on whom, and who belongs to which group, recomputed from the declarations.
-/

namespace Lineage

/-- An artifact that takes part in the dependency graph. -/
structure Member where
  id : NodeId
  type : ResourceType
  /-- What it declares to depend on. -/
  dependencies : List NodeId
deriving DecidableEq, Repr

namespace Manifest

def nodeMembers (c : Collection Node) : List Member :=
  c.toList.map fun (id, n) => ⟨id, n.resourceType, n.dependsOn.nodes⟩

def sourceMembers (c : Collection Source) : List Member :=
  c.keys.map fun id => ⟨id, .source, []⟩

def resourceMembers (c : Collection Resource) : List Member :=
  c.toList.map fun (id, r) => ⟨id, r.resourceType, r.dependsOn.nodes⟩

/-- Every artifact that takes part in the dependency graph, collection by collection in identity
order (`graph_members`). A collection that was read can hold records of any type; the others are
left out. -/
def members (m : Manifest) : List Member :=
  (nodeMembers m.nodes ++ sourceMembers m.sources
    ++ m.resourceCollections.flatMap resourceMembers).filter (·.type.hasDependencies)

/-- Each member with its dependencies, each once, in the order they were first declared
(`build_parent_map`). Where two collections hold one identity, the later one counts. -/
def parentMap (m : Manifest) : Collection (List NodeId) :=
  Std.ExtTreeMap.ofList (m.members.map fun member => (member.id, member.dependencies.eraseDups))
    compare

/-- Lists a child under each of its parents (in `build_child_map`). -/
def addChild (children : Collection (List NodeId)) (parents : List NodeId) (child : NodeId) :
    Collection (List NodeId) :=
  parents.foldl (fun children parent =>
    children.insert parent (children.getD parent [] ++ [child])) children

/-- Each member, and each identity that some member depends on, with the members that depend on it
(`build_child_map`). -/
def childMap (m : Manifest) : Collection (List NodeId) :=
  m.parentMap.toList.foldl (fun children (child, parents) => addChild children parents child)
    (m.parentMap.map fun _ _ => [])

def groupedResources (c : Collection Resource) : List (String × NodeId) :=
  c.toList.filterMap fun (id, r) => r.groupName.map (·, id)

/-- Each artifact that belongs to a group, behind that group (in `build_group_map`). -/
def groupMembers (m : Manifest) : List (String × NodeId) :=
  (m.nodes.toList.filterMap fun (id, n) =>
      if n.resourceType.participatesInGroups then n.groupName.map (·, id) else none)
    ++ [m.metrics, m.semanticModels, m.savedQueries].flatMap groupedResources

/-- Each group with its members, in identity order (`build_group_map`). -/
def groupMap (m : Manifest) : Std.ExtTreeMap String (List NodeId) compare :=
  (m.groupMembers.foldl (fun groups (group, id) =>
      groups.insert group (groups.getD group [] ++ [id])) (∅ : Collection (List NodeId))).map
    fun _ ids => ids.mergeSort (· ≤ ·)

end Manifest

end Lineage
