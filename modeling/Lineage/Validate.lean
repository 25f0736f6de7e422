import Lineage.Graph.Cycle
import Lineage.Manifest.Link
import Lineage.Report
import Lineage.Resolve.Macro

/-!
# Validation

The defects of a manifest, as findings. Lookups tolerate some of them; here each is reported. How
serious a finding is can be set in the configuration.
-/

namespace Lineage.Manifest

/-- What the record of an artifact keeps beside its known fields (in `location_of`). -/
def extraOf (m : Manifest) (id : NodeId) : Option Json.Fields :=
  (m.nodes[id]?.map (·.extra)).or <| (m.sources[id]?.map (·.extra)).or <|
    (m.macros[id]?.map (·.extra)).or <| (m.resource? id).map (·.extra)

/-- Where an artifact is defined, as far as the manifest records it (`location_of`). -/
def locationOf (m : Manifest) (id : NodeId) : Location where
  uniqueId := id
  file := (m.extraOf id).bind fun extra => extra["original_file_path"]?.bind Json.text

/-- The root project (`current_project`): the configured one, or else the manifest's. -/
def rootProject (m : Manifest) (c : Config) : Option String := c.projectNameOr m.projectName

/-- A finding at an artifact, as serious as the configuration or else `fallback` says (`emit`,
`emit_related`). -/
def finding (m : Manifest) (c : Config) (code : DiagnosticCode) (fallback : Severity)
    (site : NodeId) (message : String) (related : List NodeId) : Diagnostic where
  code := code
  severity := c.severityOf code fallback
  message := message
  location := some (m.locationOf site)
  related := related

/-! ## The graph -/

/-- The dependencies that are not members, each behind the member that declares it
(in `check_dangling_dependencies`). -/
def danglingDependencies (m : Manifest) : List (NodeId × NodeId) :=
  let parents := m.parentMap
  parents.toList.flatMap fun (id, declared) =>
    (declared.filter fun parent => !parents.contains parent).map (id, ·)

/-- One finding for each of them (`check_dangling_dependencies`). -/
def danglingFindings (m : Manifest) (c : Config) : List Diagnostic :=
  m.danglingDependencies.map fun (id, parent) =>
    m.finding c .graphDanglingDependency .error id
      (id ++ " depends on '" ++ parent ++ "', which is not in the manifest") []

/-- One finding if this graph of the manifest has a cycle (`check_cycles`). -/
def cycleFindings (m : Manifest) (c : Config) (graph : Graph) : List Diagnostic :=
  match graph.findCycle with
  | none => []
  | some members =>
    [m.finding c .graphCycle .error (members.headD "") (GraphError.cycle members).message members]

/-! ## Duplicates -/

/-- The keys that several identities share, in order, with those identities as they come. -/
def sharedKeys (order : κ → κ → Ordering) [Std.TransCmp order] (entries : List (κ × NodeId)) :
    List (κ × List NodeId) :=
  (entries.foldl (fun groups (key, id) => groups.insert key (groups.getD key [] ++ [id]))
    (∅ : Std.ExtTreeMap κ (List NodeId) order)).toList.filter fun (_, ids) => 1 < ids.length

/-- A finding at the first of several artifacts that stand for one thing (`push_duplicates`). -/
def duplicateFinding (m : Manifest) (c : Config) (code : DiagnosticCode) (message : String)
    (ids : List NodeId) : Diagnostic :=
  m.finding c code .error (ids.headD "") message ids

/-- Sources are compared by source name and then by table name. -/
def sourceOrder : String × String → String × String → Ordering :=
  compareLex (compareOn (·.1)) (compareOn (·.2))

instance : Std.TransCmp sourceOrder := by unfold sourceOrder; infer_instance

/-- The source and table names that several sources share (in `check_duplicate_sources`). -/
def duplicateSources (m : Manifest) : List ((String × String) × List NodeId) :=
  sharedKeys sourceOrder (m.sources.toList.map fun (id, s) => ((s.sourceName, s.name), id))

/-- One finding for the sources of each of them (`check_duplicate_sources`). -/
def duplicateSourceFindings (m : Manifest) (c : Config) : List Diagnostic :=
  m.duplicateSources.map fun ((source, table), ids) =>
    m.duplicateFinding c .sourceDuplicate
      ("source('" ++ source ++ "', '" ++ table ++ "') is defined " ++ toString ids.length
        ++ " times: " ++ ", ".intercalate ids) ids

/-- What `ref()` tells nodes apart by. -/
structure RefKey where
  package : String
  name : String
  version : Option String
deriving DecidableEq, Repr

/-- Keys are compared by package, name and version; a key without a version comes first. -/
def RefKey.order : RefKey → RefKey → Ordering :=
  compareLex (compareOn (·.package))
    (compareLex (compareOn (·.name)) (compareOn (·.version)))

instance : Std.TransCmp RefKey.order := by unfold RefKey.order; infer_instance

def RefKey.toText (k : RefKey) : String :=
  match k.version with
  | some v => k.package ++ "." ++ k.name ++ " (v" ++ v ++ ")"
  | none => k.package ++ "." ++ k.name

/-- The keys that several targets of references share (`refable_nodes`). -/
def duplicateRefs (m : Manifest) : List (RefKey × List NodeId) :=
  sharedKeys RefKey.order
    ((m.nodes.toList.filter fun (_, n) => n.resourceType.isRefable).map fun (id, n) =>
      (⟨n.packageName, n.name, n.versionText⟩, id))

/-- One finding for the targets of each of them (`check_duplicate_refs`). -/
def duplicateRefFindings (m : Manifest) (c : Config) : List Diagnostic :=
  m.duplicateRefs.map fun (key, ids) =>
    m.duplicateFinding c .refDuplicateInPackage
      ("ref target " ++ key.toText ++ " is defined by several nodes: " ++ ", ".intercalate ids) ids

/-! ## Recorded references -/

/-- The finding about one `ref()` call of a node, unless it means exactly one node
(in `check_declared_refs`). -/
def declaredRefFinding? (m : Manifest) (c : Config) (id : NodeId) (n : Node) (r : DeclaredRef) :
    Option Diagnostic :=
  let scope : Scope := ⟨(m.rootProject c).getD n.packageName, n.packageName⟩
  let call := id ++ " calls " ++ r.toText ++ ", which matches "
  match m.resolveRef scope r.name r.package r.version with
  | .found _ => none
  | .notFound => some (m.finding c .refNotFound .error id (call ++ "no node") [])
  | .ambiguous ids =>
    some (m.finding c .refAmbiguous .error id
      (call ++ "several nodes: " ++ ", ".intercalate ids) ids)

/-- Every recorded call is resolved as the node that holds it would (`check_declared_refs`). -/
def declaredRefFindings (m : Manifest) (c : Config) : List Diagnostic :=
  m.nodes.toList.flatMap fun (id, n) => n.declaredRefs.filterMap (m.declaredRefFinding? c id n)

/-! ## Macros -/

/-- The macros that nodes and macros call, each behind its caller
(in `check_macro_dependencies`). -/
def macroCalls (m : Manifest) : List (NodeId × NodeId) :=
  (m.nodes.toList.flatMap fun (id, n) => n.dependsOn.macros.map (id, ·))
    ++ m.macros.toList.flatMap fun (id, d) => d.dependsOn.macros.map (id, ·)

/-- One finding for each call of a macro that is not there (`check_macro_dependencies`). -/
def missingMacroFindings (m : Manifest) (c : Config) : List Diagnostic :=
  (m.macroCalls.filter fun (_, callee) => !m.macros.contains callee).map fun (id, callee) =>
    m.finding c .macroNotFound .warn id
      (id ++ " calls macro '" ++ callee ++ "', which is not in the manifest") []

/-- The names of macros, each once (in `check_macro_ambiguity`). -/
def macroNames (m : Manifest) : List String :=
  (Std.ExtTreeSet.ofList (m.macros.values.map (·.name)) compare).toList

/-- The finding about a macro name that imported packages share at the best rank
(in `check_macro_ambiguity`). -/
def macroAmbiguityFinding? (m : Manifest) (c : Config) (resolver : MacroResolver) (name : String) :
    Option Diagnostic :=
  match resolver.find name none with
  | .ok _ => none
  | .error ambiguity =>
    let fallback := if c.resolution.strictMacroAmbiguity then Severity.error else .warn
    some (m.finding c .macroAmbiguous fallback (ambiguity.candidates.headD "")
      ("macro '" ++ name ++ "' is defined by several packages of the same priority: "
        ++ ", ".intercalate ambiguity.candidates) ambiguity.candidates)

/-- Macro names are looked up strictly here, whatever the policy says (`check_macro_ambiguity`).
Without a registry of adapters that is not possible, which is a warning. -/
def macroAmbiguityFindings (m : Manifest) (c : Config) (lineup : Lineup := .byType) :
    List Diagnostic :=
  match c.registry lineup with
  | .error e => [{ code := .warning, severity := .warn
                   message := "Macro ambiguity not checked: " ++ e.message }]
  | .ok registry =>
    let resolver := MacroResolver.ofManifest m ((m.rootProject c).getD "")
      ((c.adapterTypeOr m.adapterType).getD defaultAdapterType) registry
      { c.resolution with strictMacroAmbiguity := true }
    m.macroNames.filterMap (m.macroAmbiguityFinding? c resolver)

/-! ## The report -/

/-- Every finding about a manifest and this graph of it (in `validate`). -/
def findings (m : Manifest) (c : Config) (graph : Graph) (lineup : Lineup := .byType) :
    List Diagnostic :=
  m.danglingFindings c ++ m.cycleFindings c graph ++ m.duplicateSourceFindings c
    ++ m.duplicateRefFindings c ++ m.declaredRefFindings c ++ m.missingMacroFindings c
    ++ m.macroAmbiguityFindings c lineup

/-- The report about a manifest and this graph of it (in `validate`). -/
def reportOn (m : Manifest) (c : Config) (timestamp : String) (graph : Graph)
    (lineup : Lineup := .byType) : Report :=
  ((Report.ofDiagnostics timestamp (m.findings c graph lineup)).withGraphSize graph.nodeCount
    graph.edgeCount).withProject m.projectName m.adapterType

/-- The report about a manifest (`validate`). The graph that it sizes leaves unknown dependencies
out. -/
def validate (m : Manifest) (c : Config) (timestamp : String) (lineup : Lineup := .byType) : Report :=
  m.reportOn c timestamp m.linkKnown lineup

/-- The same, where the graph may be refused (`validate`). -/
def validate? (m : Manifest) (c : Config) (timestamp : String) (lineup : Lineup := .byType) :
    Except GraphError Report :=
  (m.reportOn c timestamp · lineup) <$> m.linkKnown?

end Lineage.Manifest
