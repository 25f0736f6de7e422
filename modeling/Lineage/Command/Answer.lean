import Lineage.Command.Workspace
import Lineage.Graph.Batches
import Lineage.Graph.Contract
import Lineage.Validate

/-!
# Answers

What each command prints about a workspace.
-/

namespace Lineage

/-- How a command ends. -/
inductive Ending where
  | success
  /-- The answer itself is that something is wrong. -/
  | defect
  | error (e : CommandError)
deriving DecidableEq, Repr

/-- The lines that a command prints, and how it ends. -/
structure Answer where
  lines : List String := []
  ending : Ending := .success
deriving DecidableEq, Repr

/-- An answer, or none but an error. -/
def Answer.ofExcept : Except CommandError Answer → Answer
  | .ok answer => answer
  | .error e => { ending := .error e }

namespace Workspace

/-- The line above and below a heading. -/
def ruler : String := "".pushn '=' 60

def heading (title : String) : List String := ["", ruler, title, ruler, ""]

def footer : List String := ["", ruler]

/-! ## Plans -/

/-- The nodes that selectors select together (in `plan_command`). -/
def select (w : Workspace) (g : Graph) (selectors : List String) : Except CommandError NodeSet :=
  selectors.foldlM (fun selected text => do
    let selector ← (Selector.parse text).mapError .selector
    let id ← w.nodeId g selector.node
    return selected.insertMany (selector.expand g id).toList) ∅

/-- The graph that is planned (in `plan_command`). -/
def planned (w : Workspace) (selectors : List String) (withTests : Bool) :
    Except CommandError Graph := do
  let linked ← w.graph
  let g ← if withTests then (w.manifest.addTestEdges? linked |>.map (·.2)).mapError .testEdges
    else .ok linked
  if selectors.isEmpty then return g
  else return g.contract (← w.select g selectors).toList

def batchLines (batches : List (List NodeId)) : List String :=
  batches.zipIdx.flatMap fun (batch, i) =>
    ["", "Batch " ++ toString (i + 1)] ++ batch.map ("  - " ++ ·)

/-- The run order (`plan_command`). -/
def plan (w : Workspace) (selectors : List String) (withTests : Bool) :
    Except CommandError Answer := do
  let g ← w.planned selectors withTests
  let batches ← g.batches.mapError .graph
  let total := "Plan: " ++ toString g.nodeCount ++ " nodes in " ++ toString batches.length
    ++ " batches"
  return { lines := heading "Execution Plan" ++ [total] ++ batchLines batches ++ footer }

/-! ## Impact -/

/-- An artifact with its type, where the manifest has it (in `impact_command`). -/
def describe (w : Workspace) (id : NodeId) : String :=
  match w.manifest.resourceTypeOf id with
  | some type => id ++ " (" ++ type.name ++ ")"
  | none => id

def affectedLines (w : Workspace) (batches : List (List NodeId)) : List String :=
  batches.flatten.zipIdx.map fun (id, i) => "  " ++ toString (i + 1) ++ ". " ++ w.describe id

/-- What depends on a node, in dependency order (`impact_command`). -/
def impact (w : Workspace) (node : String) : Except CommandError Answer := do
  let g ← w.graph
  let id ← w.nodeId g node
  let dependents ← (g.descendants id none).mapError .graph
  let direct := g.selectSuccessors [id]
  let start := heading "Downstream Impact Analysis"
    ++ ["Node: " ++ id, "Direct dependents: " ++ toString direct.size,
      "Downstream nodes: " ++ toString dependents.size, ""]
  if dependents.isEmpty then
    return { lines := start ++ ["✓ No downstream dependencies",
      "This node can be modified without affecting other nodes."] ++ footer }
  else
    let start := start ++ ["Affected nodes (in dependency order):", ""]
    match (g.contract dependents.toList).batches with
    | .error e => return { lines := start, ending := .error (.graph e) }
    | .ok batches =>
      return { lines := start ++ w.affectedLines batches
        ++ ["", "⚠ Changes to this node may break downstream nodes!"] ++ footer }

/-! ## References -/

def severityLabel : Severity → String
  | .error => "ERROR"
  | .warn => "WARN"
  | .info => "INFO"

def locationLines : Option Location → List String
  | some ⟨id, some file⟩ => ["    at " ++ id ++ " (" ++ file ++ ")"]
  | some ⟨id, none⟩ => ["    at " ++ id]
  | none => []

/-- What is printed about a finding (`print_diagnostic`). -/
def diagnosticLines (d : Diagnostic) : List String :=
  ["  [" ++ severityLabel d.severity ++ "] " ++ d.code.name ++ ": " ++ d.message]
    ++ locationLines d.location
    ++ if d.related.isEmpty then [] else ["    Related: " ++ ", ".intercalate d.related]

/-- What a reference is looked up as, the label it is reported under, and the result
(in `resolve_command`). -/
def lookup (w : Workspace) (macros : MacroResolver) :
    Reference → LookupKind × String × Except Ambiguity (Option NodeId)
  | .ref name package version fromPackage =>
    (.ref, name, (w.manifest.resolveRef ⟨w.project, fromPackage.getD w.project⟩ name package
      version).toResult .ref name)
  | .source sourceName tableName fromPackage =>
    let label := sourceName ++ "." ++ tableName
    (.source, label, (w.manifest.resolveSource ⟨w.project, fromPackage.getD w.project⟩ sourceName
      tableName).toResult .source label)
  | .doc name package fromPackage =>
    (.doc, name, (w.manifest.resolveDoc ⟨w.project, fromPackage.getD w.project⟩ name
      package).toResult .doc name)
  | .macroDef name package => (.macroDef, name, macros.find name package)
  | .materialization name =>
    (.macroDef, materializationName name w.adapterType, macros.findMaterialization name)

/-- What a reference means (`resolve_command`). Several candidates are a defect, and so is none
where the kind of the reference says so. -/
def resolve (w : Workspace) (reference : Reference) : Except CommandError Answer := do
  let registry ← w.config.registry.mapError .adapter
  let macros :=
    MacroResolver.ofManifest w.manifest w.project w.adapterType registry w.config.resolution
  match w.lookup macros reference with
  | (_, _, .ok (some id)) => return { lines := [id] }
  | (_, _, .error ambiguity) =>
    return { lines := diagnosticLines ambiguity.toDiagnostic, ending := .defect }
  | (kind, label, .ok none) =>
    match kind.notFoundCode? with
    | none => throw (.noResult kind label)
    | some code =>
      let finding : Diagnostic :=
        { code, severity := .error, message := kind.name ++ " '" ++ label ++ "' matches nothing" }
      return { lines := diagnosticLines finding, ending := .defect }

/-! ## Maps -/

/-- The derived maps as one text (`maps_command`). -/
def mapsText (w : Workspace) : String :=
  (Json.obj [("child_map", Json.ofMap Json.strings w.manifest.childMap),
    ("group_map", Json.ofMap Json.strings w.manifest.groupMap),
    ("parent_map", Json.ofMap Json.strings w.manifest.parentMap)]).pretty

/-! ## Validation -/

/-- A text followed by blanks up to a width. -/
def padded (width : Nat) (text : String) : String := text.pushn ' ' (width - text.length)

def countLines (r : Report) : List String :=
  r.countsByCode.toList.map fun (code, n) => "    " ++ padded 28 code ++ " " ++ toString n

def findingLines (r : Report) : List String :=
  if r.diagnostics.isEmpty then ["✓ No issues found!"]
  else "Diagnostics:" :: r.diagnostics.flatMap diagnosticLines

/-- What is printed about a report (`print_report_summary`). -/
def reportLines (r : Report) : List String :=
  heading "Manifest Validation Report"
    ++ ["Version: " ++ r.version.toText, "Timestamp: " ++ r.timestamp,
      "Graph: " ++ toString r.summary.nodesChecked ++ " nodes, " ++ toString r.summary.edgesChecked
        ++ " edges",
      "", "Summary:", "  Total diagnostics: " ++ toString r.summary.total,
      "  Errors:   " ++ toString r.summary.errors, "  Warnings: " ++ toString r.summary.warnings,
      "  Info:     " ++ toString r.summary.info]
    ++ countLines r ++ [""] ++ findingLines r ++ footer

/-- The answer for a report (`validate_command`); findings that are errors are a defect. -/
def validated (r : Report) : Answer where
  lines := reportLines r
  ending := if r.hasErrors then .defect else .success

/-! ## Cycles -/

/-- A cycle, which is a defect, or the size of the graph (`cycle_command`). -/
def cycle (w : Workspace) : Except CommandError Answer := do
  let g ← w.graph
  match g.findCycle with
  | some members =>
    return { lines := ["✗ Dependency cycle: " ++ arrowChain members], ending := .defect }
  | none =>
    return { lines := ["✓ No dependency cycles (" ++ toString g.nodeCount ++ " nodes, "
      ++ toString g.edgeCount ++ " edges)"] }

end Workspace

end Lineage
