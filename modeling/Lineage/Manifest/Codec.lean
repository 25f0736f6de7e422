import Lineage.Json.Decode
import Lineage.Json.Focus
import Lineage.Manifest.Record

/-!
# Records as JSON

How each record is read and written. Known fields are written first, in a fixed order, then the
others by name. A record has to be an object; what an artifact depends on may also be an array with
its two lists by position.
-/

namespace Lineage

/-! ## Dependencies -/

namespace DependsOn

def ids : Json → Option (List NodeId) := Json.listOf Json.text

def known : List String := ["nodes", "macros"]

/-- Other fields are not kept. -/
def focus : Json.Focus := .only known

def ofJson? : Json → Option DependsOn
  | .obj fields =>
    if Json.distinct known fields then do
      let nodes ← Json.defaulted "nodes" ids [] fields
      let macros ← Json.defaulted "macros" ids [] fields
      return { nodes, macros }
    else none
  | .arr [] => some {}
  | .arr [nodes] => do return { nodes := ← ids nodes }
  | .arr [nodes, macros] => do return { nodes := ← ids nodes, macros := ← ids macros }
  | _ => none

def toJson (d : DependsOn) : Json :=
  .obj [("nodes", Json.strings d.nodes), ("macros", Json.strings d.macros)]

end DependsOn

/-! ## Configurations -/

namespace ArtifactConfig

def known : List String := ["enabled", "materialized", "group"]

def ofJson? : Json → Option ArtifactConfig
  | .obj fields =>
    if Json.distinct known fields then do
      let enabled ← Json.optional "enabled" Json.flag fields
      let materialized ← Json.optional "materialized" Json.text fields
      let group ← Json.optional "group" Json.text fields
      return { enabled, materialized, group, extra := Json.others known fields }
    else none
  | _ => none

def toJson (c : ArtifactConfig) : Json :=
  .obj (Json.optionalField "enabled" .bool c.enabled
    ++ Json.optionalField "materialized" .str c.materialized
    ++ Json.optionalField "group" .str c.group
    ++ c.extra.toList)

end ArtifactConfig

/-! ## Artifacts -/

namespace Node

def known : List String :=
  ["unique_id", "name", "resource_type", "package_name", "version", "latest_version", "group",
    "config", "depends_on"]

def focus : Json.Focus := .record [("depends_on", DependsOn.focus)] .whole

def ofJson? : Json → Option Node
  | .obj fields =>
    if Json.distinct known fields then do
      let uniqueId ← Json.required "unique_id" Json.text fields
      let name ← Json.required "name" Json.text fields
      let resourceType ← Json.required "resource_type" ResourceType.ofJson? fields
      let packageName ← Json.required "package_name" Json.text fields
      let version ← Json.optional "version" Json.any fields
      let latestVersion ← Json.optional "latest_version" Json.any fields
      let group ← Json.optional "group" Json.text fields
      let config ← Json.defaulted "config" ArtifactConfig.ofJson? {} fields
      let dependsOn ← Json.defaulted "depends_on" DependsOn.ofJson? {} fields
      return { uniqueId, name, resourceType, packageName, version, latestVersion, group, config
               dependsOn, extra := Json.others known fields }
    else none
  | _ => none

def toJson (n : Node) : Json :=
  .obj ([("unique_id", .str n.uniqueId), ("name", .str n.name),
      ("resource_type", n.resourceType.toJson), ("package_name", .str n.packageName)]
    ++ Json.optionalField "version" id n.version
    ++ Json.optionalField "latest_version" id n.latestVersion
    ++ Json.optionalField "group" .str n.group
    ++ [("config", n.config.toJson), ("depends_on", n.dependsOn.toJson)]
    ++ n.extra.toList)

end Node

namespace Source

def known : List String :=
  ["unique_id", "source_name", "name", "resource_type", "package_name"]

def ofJson? : Json → Option Source
  | .obj fields =>
    if Json.distinct known fields then do
      let uniqueId ← Json.required "unique_id" Json.text fields
      let sourceName ← Json.required "source_name" Json.text fields
      let name ← Json.required "name" Json.text fields
      let resourceType ← Json.required "resource_type" ResourceType.ofJson? fields
      let packageName ← Json.required "package_name" Json.text fields
      return { uniqueId, sourceName, name, resourceType, packageName
               extra := Json.others known fields }
    else none
  | _ => none

def toJson (s : Source) : Json :=
  .obj ([("unique_id", .str s.uniqueId), ("source_name", .str s.sourceName), ("name", .str s.name),
      ("resource_type", s.resourceType.toJson), ("package_name", .str s.packageName)]
    ++ s.extra.toList)

end Source

namespace MacroDef

def known : List String := ["unique_id", "name", "resource_type", "package_name", "depends_on"]

def focus : Json.Focus := .record [("depends_on", DependsOn.focus)] .whole

def ofJson? : Json → Option MacroDef
  | .obj fields =>
    if Json.distinct known fields then do
      let uniqueId ← Json.required "unique_id" Json.text fields
      let name ← Json.required "name" Json.text fields
      let resourceType ← Json.required "resource_type" ResourceType.ofJson? fields
      let packageName ← Json.required "package_name" Json.text fields
      let dependsOn ← Json.defaulted "depends_on" DependsOn.ofJson? {} fields
      return { uniqueId, name, resourceType, packageName, dependsOn
               extra := Json.others known fields }
    else none
  | _ => none

def toJson (m : MacroDef) : Json :=
  .obj ([("unique_id", .str m.uniqueId), ("name", .str m.name),
      ("resource_type", m.resourceType.toJson), ("package_name", .str m.packageName),
      ("depends_on", m.dependsOn.toJson)]
    ++ m.extra.toList)

end MacroDef

namespace Doc

def known : List String := ["unique_id", "name", "resource_type", "package_name"]

def ofJson? : Json → Option Doc
  | .obj fields =>
    if Json.distinct known fields then do
      let uniqueId ← Json.required "unique_id" Json.text fields
      let name ← Json.required "name" Json.text fields
      let resourceType ← Json.required "resource_type" ResourceType.ofJson? fields
      let packageName ← Json.required "package_name" Json.text fields
      return { uniqueId, name, resourceType, packageName, extra := Json.others known fields }
    else none
  | _ => none

def toJson (d : Doc) : Json :=
  .obj ([("unique_id", .str d.uniqueId), ("name", .str d.name),
      ("resource_type", d.resourceType.toJson), ("package_name", .str d.packageName)]
    ++ d.extra.toList)

end Doc

namespace Group

def known : List String := ["unique_id", "name", "resource_type", "package_name"]

def ofJson? : Json → Option Group
  | .obj fields =>
    if Json.distinct known fields then do
      let uniqueId ← Json.required "unique_id" Json.text fields
      let name ← Json.required "name" Json.text fields
      let resourceType ← Json.required "resource_type" ResourceType.ofJson? fields
      let packageName ← Json.required "package_name" Json.text fields
      return { uniqueId, name, resourceType, packageName, extra := Json.others known fields }
    else none
  | _ => none

def toJson (g : Group) : Json :=
  .obj ([("unique_id", .str g.uniqueId), ("name", .str g.name),
      ("resource_type", g.resourceType.toJson), ("package_name", .str g.packageName)]
    ++ g.extra.toList)

end Group

namespace Resource

def known : List String :=
  ["unique_id", "name", "resource_type", "package_name", "group", "config", "depends_on"]

def focus : Json.Focus := .record [("depends_on", DependsOn.focus)] .whole

def ofJson? : Json → Option Resource
  | .obj fields =>
    if Json.distinct known fields then do
      let uniqueId ← Json.required "unique_id" Json.text fields
      let name ← Json.required "name" Json.text fields
      let resourceType ← Json.required "resource_type" ResourceType.ofJson? fields
      let packageName ← Json.required "package_name" Json.text fields
      let group ← Json.optional "group" Json.text fields
      let config ← Json.defaulted "config" ArtifactConfig.ofJson? {} fields
      let dependsOn ← Json.defaulted "depends_on" DependsOn.ofJson? {} fields
      return { uniqueId, name, resourceType, packageName, group, config, dependsOn
               extra := Json.others known fields }
    else none
  | _ => none

def toJson (r : Resource) : Json :=
  .obj ([("unique_id", .str r.uniqueId), ("name", .str r.name),
      ("resource_type", r.resourceType.toJson), ("package_name", .str r.packageName)]
    ++ Json.optionalField "group" .str r.group
    ++ [("config", r.config.toJson), ("depends_on", r.dependsOn.toJson)]
    ++ r.extra.toList)

end Resource

end Lineage
