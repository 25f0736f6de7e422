import Lineage.Json.Reader
import Lineage.Manifest.Codec

/-!
# Manifests

A manifest holds the artifacts of a project in collections by identity. It is read from and
written as one JSON document; whatever this library does not look at is kept and written back.
-/

namespace Lineage

/-- What a manifest says about itself (`ManifestMetadata`). -/
structure Metadata where
  schemaVersion : Option String := none
  toolVersion : Option String := none
  /-- The root project. -/
  projectName : Option String := none
  /-- The adapter that macros are looked up for. -/
  adapterType : Option String := none
  generatedAt : Option String := none
  invocationId : Option String := none
  extra : Json.Fields := ∅
deriving DecidableEq, Inhabited

/-- Values by identity. -/
abbrev Collection (α : Type) := Std.ExtTreeMap NodeId α compare

structure Manifest where
  metadata : Metadata := {}
  nodes : Collection Node := ∅
  sources : Collection Source := ∅
  macros : Collection MacroDef := ∅
  docs : Collection Doc := ∅
  exposures : Collection Resource := ∅
  metrics : Collection Resource := ∅
  groups : Collection Group := ∅
  selectors : Json.Fields := ∅
  /-- Disabled definitions; one identity can have several. -/
  disabled : Collection (List Json) := ∅
  semanticModels : Collection Resource := ∅
  unitTests : Collection Resource := ∅
  savedQueries : Collection Resource := ∅
  extra : Json.Fields := ∅
deriving DecidableEq, Inhabited

/-- Why a manifest refuses an artifact (`UnexpectedResourceType`): its type belongs to another
collection. -/
structure Misplaced where
  uniqueId : NodeId
  resourceType : ResourceType
deriving DecidableEq, Repr

def Misplaced.message (e : Misplaced) : String :=
  e.uniqueId ++ " has resource type '" ++ e.resourceType.name
    ++ "', which does not belong in this collection"

/-! ## Reading and writing -/

namespace Metadata

def known : List String :=
  ["dbt_schema_version", "dbt_version", "project_name", "adapter_type", "generated_at",
    "invocation_id"]

def ofJson? : Json → Option Metadata
  | .obj fields =>
    if Json.distinct known fields then do
      let schemaVersion ← Json.optional "dbt_schema_version" Json.text fields
      let toolVersion ← Json.optional "dbt_version" Json.text fields
      let projectName ← Json.optional "project_name" Json.text fields
      let adapterType ← Json.optional "adapter_type" Json.text fields
      let generatedAt ← Json.optional "generated_at" Json.text fields
      let invocationId ← Json.optional "invocation_id" Json.text fields
      return { schemaVersion, toolVersion, projectName, adapterType, generatedAt, invocationId
               extra := Json.others known fields }
    else none
  | _ => none

def toJson (m : Metadata) : Json :=
  .obj (Json.optionalField "dbt_schema_version" .str m.schemaVersion
    ++ Json.optionalField "dbt_version" .str m.toolVersion
    ++ Json.optionalField "project_name" .str m.projectName
    ++ Json.optionalField "adapter_type" .str m.adapterType
    ++ Json.optionalField "generated_at" .str m.generatedAt
    ++ Json.optionalField "invocation_id" .str m.invocationId
    ++ m.extra.toList)

end Metadata

namespace Manifest

def known : List String :=
  ["metadata", "nodes", "sources", "macros", "docs", "exposures", "metrics", "groups", "selectors",
    "disabled", "semantic_models", "unit_tests", "saved_queries"]

/-- Everything is kept but unknown fields beside declared dependencies. -/
def focus : Json.Focus :=
  .record
    [("nodes", .each Node.focus), ("macros", .each MacroDef.focus),
      ("exposures", .each Resource.focus), ("metrics", .each Resource.focus),
      ("semantic_models", .each Resource.focus), ("unit_tests", .each Resource.focus),
      ("saved_queries", .each Resource.focus)]
    .whole

def ofJson? : Json → Option Manifest
  | .obj fields =>
    if Json.distinct known fields then do
      let resources := Json.mapOf Resource.ofJson?
      let metadata ← Json.defaulted "metadata" Metadata.ofJson? {} fields
      let nodes ← Json.defaulted "nodes" (Json.mapOf Node.ofJson?) ∅ fields
      let sources ← Json.defaulted "sources" (Json.mapOf Source.ofJson?) ∅ fields
      let macros ← Json.defaulted "macros" (Json.mapOf MacroDef.ofJson?) ∅ fields
      let docs ← Json.defaulted "docs" (Json.mapOf Doc.ofJson?) ∅ fields
      let exposures ← Json.defaulted "exposures" resources ∅ fields
      let metrics ← Json.defaulted "metrics" resources ∅ fields
      let groups ← Json.defaulted "groups" (Json.mapOf Group.ofJson?) ∅ fields
      let selectors ← Json.defaulted "selectors" (Json.mapOf Json.any) ∅ fields
      let disabled ← Json.defaulted "disabled" (Json.mapOf (Json.listOf Json.any)) ∅ fields
      let semanticModels ← Json.defaulted "semantic_models" resources ∅ fields
      let unitTests ← Json.defaulted "unit_tests" resources ∅ fields
      let savedQueries ← Json.defaulted "saved_queries" resources ∅ fields
      return { metadata, nodes, sources, macros, docs, exposures, metrics, groups, selectors
               disabled, semanticModels, unitTests, savedQueries
               extra := Json.others known fields }
    else none
  | _ => none

def toJson (m : Manifest) : Json :=
  .obj ([("metadata", m.metadata.toJson),
      ("nodes", Json.ofMap Node.toJson m.nodes),
      ("sources", Json.ofMap Source.toJson m.sources),
      ("macros", Json.ofMap MacroDef.toJson m.macros),
      ("docs", Json.ofMap Doc.toJson m.docs),
      ("exposures", Json.ofMap Resource.toJson m.exposures),
      ("metrics", Json.ofMap Resource.toJson m.metrics),
      ("groups", Json.ofMap Group.toJson m.groups),
      ("selectors", Json.ofMap id m.selectors),
      ("disabled", Json.ofMap Json.arr m.disabled),
      ("semantic_models", Json.ofMap Resource.toJson m.semanticModels),
      ("unit_tests", Json.ofMap Resource.toJson m.unitTests),
      ("saved_queries", Json.ofMap Resource.toJson m.savedQueries)]
    ++ m.extra.toList)

/-- Reads a manifest from a text (`from_str`). -/
def parse? (text : String) : Option Manifest := (Json.parseFor? focus text).bind ofJson?

/-- The text of a manifest, one part to a line (`to_json`). -/
def toText (m : Manifest) : String := m.toJson.pretty

/-- A manifest without artifacts (`new`). -/
def ofProject (project adapter : String) : Manifest :=
  { metadata := { projectName := some project, adapterType := some adapter } }

def projectName (m : Manifest) : Option String := m.metadata.projectName

def adapterType (m : Manifest) : Option String := m.metadata.adapterType

/-! ## Adding and removing -/

/-- Adds a node, or replaces the one of its identity (`add_node`). Only node types are accepted. -/
def addNode (m : Manifest) (n : Node) : Except Misplaced Manifest :=
  if n.resourceType.isNode then .ok { m with nodes := m.nodes.insert n.uniqueId n }
  else .error ⟨n.uniqueId, n.resourceType⟩

def addSource (m : Manifest) (s : Source) : Manifest :=
  { m with sources := m.sources.insert s.uniqueId s }

def addMacro (m : Manifest) (d : MacroDef) : Manifest :=
  { m with macros := m.macros.insert d.uniqueId d }

def addDoc (m : Manifest) (d : Doc) : Manifest := { m with docs := m.docs.insert d.uniqueId d }

def addGroup (m : Manifest) (g : Group) : Manifest :=
  { m with groups := m.groups.insert g.uniqueId g }

/-- Adds a resource to the collection of its type, or replaces the one of its identity there
(`add_resource`). Only the five resource types are accepted. -/
def addResource (m : Manifest) (r : Resource) : Except Misplaced Manifest :=
  match r.resourceType with
  | .exposure => .ok { m with exposures := m.exposures.insert r.uniqueId r }
  | .metric => .ok { m with metrics := m.metrics.insert r.uniqueId r }
  | .semanticModel => .ok { m with semanticModels := m.semanticModels.insert r.uniqueId r }
  | .savedQuery => .ok { m with savedQueries := m.savedQueries.insert r.uniqueId r }
  | .unitTest => .ok { m with unitTests := m.unitTests.insert r.uniqueId r }
  | other => .error ⟨r.uniqueId, other⟩

/-- Removes an artifact from the first collection that holds its identity, and answers with its type
there (`remove`). -/
def remove (m : Manifest) (id : NodeId) : Option ResourceType × Manifest :=
  if let some n := m.nodes[id]? then
    (some n.resourceType, { m with nodes := m.nodes.erase id })
  else if m.sources.contains id then
    (some .source, { m with sources := m.sources.erase id })
  else if m.macros.contains id then
    (some .macroDef, { m with macros := m.macros.erase id })
  else if m.docs.contains id then
    (some .doc, { m with docs := m.docs.erase id })
  else if m.groups.contains id then
    (some .group, { m with groups := m.groups.erase id })
  else if m.selectors.contains id then
    (some .selector, { m with selectors := m.selectors.erase id })
  else if let some r := m.exposures[id]? then
    (some r.resourceType, { m with exposures := m.exposures.erase id })
  else if let some r := m.metrics[id]? then
    (some r.resourceType, { m with metrics := m.metrics.erase id })
  else if let some r := m.semanticModels[id]? then
    (some r.resourceType, { m with semanticModels := m.semanticModels.erase id })
  else if let some r := m.savedQueries[id]? then
    (some r.resourceType, { m with savedQueries := m.savedQueries.erase id })
  else if let some r := m.unitTests[id]? then
    (some r.resourceType, { m with unitTests := m.unitTests.erase id })
  else (none, m)

/-! ## Lookup -/

/-- The collections of resources, in the order they are searched (`resource_collections`). -/
def resourceCollections (m : Manifest) : List (Collection Resource) :=
  [m.exposures, m.metrics, m.semanticModels, m.savedQueries, m.unitTests]

/-- A resource in the first collection that holds its identity (`get_resource`). -/
def resource? (m : Manifest) (id : NodeId) : Option Resource :=
  m.resourceCollections.findSome? (·[id]?)

/-- The type of an artifact in the first collection that holds its identity (`resource_type_of`). -/
def resourceTypeOf (m : Manifest) (id : NodeId) : Option ResourceType :=
  if let some n := m.nodes[id]? then some n.resourceType
  else if m.sources.contains id then some .source
  else if m.macros.contains id then some .macroDef
  else if m.docs.contains id then some .doc
  else if m.groups.contains id then some .group
  else if m.selectors.contains id then some .selector
  else (m.resource? id).map (·.resourceType)

/-- The nodes of one type, by identity (`filter_nodes_by_resource_type`). -/
def nodesOfType (m : Manifest) (type : ResourceType) : List Node :=
  m.nodes.values.filter (·.resourceType == type)

/-- The nodes of one package, by identity (`filter_nodes_by_package`). -/
def nodesOfPackage (m : Manifest) (package : String) : List Node :=
  m.nodes.values.filter (·.packageName == package)

end Manifest

end Lineage
