import Lineage.Graph.Basic
import Lineage.ResourceType
import Lineage.Version

/-!
# Artifact records

What a manifest says about one artifact. Fields that no operation looks at are kept in `extra`, by
name, so that a record can be written as it was read.
-/

namespace Lineage

/-- What an artifact declares to depend on, in the order it was written. -/
structure DependsOn where
  /-- Artifacts. -/
  nodes : List NodeId := []
  /-- Macros it calls. -/
  macros : List NodeId := []
deriving DecidableEq, Inhabited

/-- The configuration of an artifact (`NodeConfig`). -/
structure ArtifactConfig where
  enabled : Option Bool := none
  materialized : Option String := none
  group : Option String := none
  extra : Json.Fields := ∅
deriving DecidableEq, Inhabited

/-- Artifacts are enabled unless their configuration says otherwise (`is_enabled`). -/
def ArtifactConfig.isEnabled (c : ArtifactConfig) : Bool := c.enabled.getD true

/-- A model, seed, snapshot, test, analysis or operation (`ManifestNode`). -/
structure Node where
  uniqueId : NodeId
  name : String
  resourceType : ResourceType
  packageName : String
  version : Option Json := none
  latestVersion : Option Json := none
  group : Option String := none
  config : ArtifactConfig := {}
  dependsOn : DependsOn := {}
  extra : Json.Fields := ∅
deriving DecidableEq

/-- A table that is loaded from outside the project (`ManifestSource`). -/
structure Source where
  uniqueId : NodeId
  sourceName : String
  /-- The name of the table. -/
  name : String
  resourceType : ResourceType
  packageName : String
  extra : Json.Fields := ∅
deriving DecidableEq

/-- A macro (`ManifestMacro`). -/
structure MacroDef where
  uniqueId : NodeId
  name : String
  resourceType : ResourceType
  packageName : String
  dependsOn : DependsOn := {}
  extra : Json.Fields := ∅
deriving DecidableEq

/-- A documentation block (`ManifestDoc`). -/
structure Doc where
  uniqueId : NodeId
  name : String
  resourceType : ResourceType
  packageName : String
  extra : Json.Fields := ∅
deriving DecidableEq

/-- A group that artifacts can belong to (`ManifestGroup`). -/
structure Group where
  uniqueId : NodeId
  name : String
  resourceType : ResourceType
  packageName : String
  extra : Json.Fields := ∅
deriving DecidableEq

/-- An exposure, metric, semantic model, saved query or unit test (`ManifestResource`). -/
structure Resource where
  uniqueId : NodeId
  name : String
  resourceType : ResourceType
  packageName : String
  group : Option String := none
  config : ArtifactConfig := {}
  dependsOn : DependsOn := {}
  extra : Json.Fields := ∅
deriving DecidableEq

/-! ## Building records -/

/-- An identity is the artifact's type, package and name (in `new`). -/
def identity (parts : List String) : NodeId := ".".intercalate parts

/-- A node that is known by type, package and name only (`new`). -/
def Node.ofName (type : ResourceType) (package name : String) : Node :=
  { uniqueId := identity [type.name, package, name], name, resourceType := type
    packageName := package }

def Source.ofName (package sourceName name : String) : Source :=
  { uniqueId := identity [ResourceType.source.name, package, sourceName, name], sourceName, name
    resourceType := .source, packageName := package }

def MacroDef.ofName (package name : String) : MacroDef :=
  { uniqueId := identity [ResourceType.macroDef.name, package, name], name
    resourceType := .macroDef, packageName := package }

def Doc.ofName (package name : String) : Doc :=
  { uniqueId := identity [ResourceType.doc.name, package, name], name, resourceType := .doc
    packageName := package }

def Group.ofName (package name : String) : Group :=
  { uniqueId := identity [ResourceType.group.name, package, name], name, resourceType := .group
    packageName := package }

def Resource.ofName (type : ResourceType) (package name : String) : Resource :=
  { uniqueId := identity [type.name, package, name], name, resourceType := type
    packageName := package }

/-- Declares further dependencies (`with_depends_on`). -/
def Node.withDependsOn (n : Node) (ids : List NodeId) : Node :=
  { n with dependsOn := { n.dependsOn with nodes := n.dependsOn.nodes ++ ids } }

/-- Puts the artifact into a group (`with_group`). -/
def Node.withGroup (n : Node) (group : String) : Node :=
  { n with config := { n.config with group := some group } }

/-- Gives the node a version, which also ends its identity (`with_version`). -/
def Node.withVersion (n : Node) (version : Json) : Node :=
  { n with
    uniqueId := match Version.ofJson? version with
      | some v => n.uniqueId ++ ".v" ++ v
      | none => n.uniqueId
    version := some version }

/-- Declares further dependencies (`with_depends_on`). -/
def Resource.withDependsOn (r : Resource) (ids : List NodeId) : Resource :=
  { r with dependsOn := { r.dependsOn with nodes := r.dependsOn.nodes ++ ids } }

/-! ## Versions and groups -/

/-- The normal form of the node's version, if it has one (`version_str`). -/
def Node.versionText (n : Node) : Option String := n.version.bind Version.ofJson?

/-- The normal form of the version that the node names as the latest (`latest_version_str`). -/
def Node.latestVersionText (n : Node) : Option String := n.latestVersion.bind Version.ofJson?

/-- The first group that is named (`non_empty`); an empty name counts as none. -/
def firstGroup (configured declared : Option String) : Option String :=
  (configured.filter (· != "")).or (declared.filter (· != ""))

/-- The group of a node (`group_name`): the configured one, or else the declared one. -/
def Node.groupName (n : Node) : Option String := firstGroup n.config.group n.group

/-- The group of a resource (`group_name`): the configured one, or else the declared one. -/
def Resource.groupName (r : Resource) : Option String := firstGroup r.config.group r.group

/-! ## Recorded references -/

/-- One `ref()` call that a record lists. -/
structure DeclaredRef where
  name : String
  package : Option String := none
  version : Option String := none
deriving DecidableEq, Repr

namespace DeclaredRef

/-- Reads a call (`from_value`): an object with a name, or an array whose texts are a name or a
package and a name. -/
def ofJson? : Json → Option DeclaredRef
  | .obj fields => do
    let name ← (fields.lookup "name").bind Json.text
    return {
      name
      package := (fields.lookup "package").bind Json.text
      version := (fields.lookup "version").bind Version.ofJson? }
  | .arr items =>
    match items.filterMap Json.text with
    | [name] => some { name }
    | [package, name] => some { name, package := some package }
    | _ => none
  | _ => none

/-- The call as it is written in a project. -/
def toText (r : DeclaredRef) : String :=
  let target := match r.package with
    | some package => "ref('" ++ package ++ "', '" ++ r.name ++ "'"
    | none => "ref('" ++ r.name ++ "'"
  let version := match r.version with
    | some v => ", v=" ++ v
    | none => ""
  target ++ version ++ ")"

/-- The calls that the field `refs` lists (`declared_refs`); items that are no call are left out. -/
def listed (extra : Json.Fields) : List DeclaredRef :=
  match extra["refs"]? with
  | some (.arr items) => items.filterMap ofJson?
  | _ => []

end DeclaredRef

def Node.declaredRefs (n : Node) : List DeclaredRef := DeclaredRef.listed n.extra

def Resource.declaredRefs (r : Resource) : List DeclaredRef := DeclaredRef.listed r.extra

end Lineage
