import Lineage.Diagnostic
import Lineage.Json.Printer
import Lineage.Json.Reader

/-!
# Reports

The outcome of a check: findings, how many of each severity, and the size of the graph that was
checked. The schema is stable and has a version. Counts are numbers of 64 bits, the parts of the
version numbers of 32 bits.
-/

namespace Lineage

/-- A version of the form of reports (`ReportVersion`). -/
structure SchemaVersion where
  major : Nat
  minor : Nat
deriving DecidableEq, Repr

namespace SchemaVersion

/-- The version that reports are written in (`CURRENT`). -/
def current : SchemaVersion := ⟨1, 0⟩

def toText (v : SchemaVersion) : String := toString v.major ++ "." ++ toString v.minor

def part : Json → Option Nat := Json.natBelow (twoTo 32)

def known : List String := ["major", "minor"]

def focus : Json.Focus := .only known

def ofJson? : Json → Option SchemaVersion
  | .obj fields =>
    if Json.distinct known fields then do
      let major ← Json.required "major" part fields
      let minor ← Json.required "minor" part fields
      return { major, minor }
    else none
  | .arr [major, minor] => do return { major := ← part major, minor := ← part minor }
  | _ => none

def toJson (v : SchemaVersion) : Json :=
  .obj [("major", Json.ofNat v.major), ("minor", Json.ofNat v.minor)]

end SchemaVersion

/-- What a report counts (`ReportSummary`). -/
structure Summary where
  total : Nat := 0
  errors : Nat := 0
  warnings : Nat := 0
  info : Nat := 0
  nodesChecked : Nat := 0
  edgesChecked : Nat := 0
deriving DecidableEq, Repr

namespace Summary

def count : Json → Option Nat := Json.natBelow (twoTo 64)

def known : List String :=
  ["total", "errors", "warnings", "info", "nodes_checked", "edges_checked"]

def focus : Json.Focus := .only known

def ofJson? : Json → Option Summary
  | .obj fields =>
    if Json.distinct known fields then do
      let total ← Json.required "total" count fields
      let errors ← Json.required "errors" count fields
      let warnings ← Json.required "warnings" count fields
      let info ← Json.required "info" count fields
      let nodesChecked ← Json.required "nodes_checked" count fields
      let edgesChecked ← Json.required "edges_checked" count fields
      return { total, errors, warnings, info, nodesChecked, edgesChecked }
    else none
  | .arr [total, errors, warnings, info, nodesChecked, edgesChecked] => do
    return { total := ← count total, errors := ← count errors, warnings := ← count warnings
             info := ← count info, nodesChecked := ← count nodesChecked
             edgesChecked := ← count edgesChecked }
  | _ => none

def toJson (s : Summary) : Json :=
  .obj [("total", Json.ofNat s.total), ("errors", Json.ofNat s.errors),
    ("warnings", Json.ofNat s.warnings), ("info", Json.ofNat s.info),
    ("nodes_checked", Json.ofNat s.nodesChecked), ("edges_checked", Json.ofNat s.edgesChecked)]

/-- Counts one more; behind the last number of 64 bits comes zero. -/
def next (n : Nat) : Nat := (n + 1) % twoTo 64

/-- Counts one more finding (`add_diagnostic`). -/
def add (s : Summary) (severity : Severity) : Summary :=
  let s := match severity with
    | .error => { s with errors := next s.errors }
    | .warn => { s with warnings := next s.warnings }
    | .info => { s with info := next s.info }
  { s with total := next s.total }

end Summary

structure Report where
  version : SchemaVersion := .current
  /-- When the report was made. -/
  timestamp : String
  summary : Summary := {}
  diagnostics : List Diagnostic := []
  metadata : Option Json := none
deriving DecidableEq

namespace Report

/-- Adds a finding and counts it (`add_diagnostic`). -/
def add (r : Report) (d : Diagnostic) : Report :=
  { r with summary := r.summary.add d.severity, diagnostics := r.diagnostics ++ [d] }

/-- The report of these findings, in order (`from_diagnostics`). -/
def ofDiagnostics (timestamp : String) (findings : List Diagnostic) : Report :=
  findings.foldl add { timestamp }

/-- Records the size of the graph that was checked (`with_graph_size`). -/
def withGraphSize (r : Report) (nodes edges : Nat) : Report :=
  { r with summary := { r.summary with nodesChecked := nodes, edgesChecked := edges } }

/-- Records the project and the adapter that were checked (`with_project`). -/
def withProject (r : Report) (project adapter : Option String) : Report :=
  let name (s : Option String) : Json := (s.map .str).getD .null
  { r with
    metadata := some (.obj [("adapter_type", name adapter), ("project_name", name project)]) }

/-- How many findings there are of each code, by name (`counts_by_code`). -/
def countsByCode (r : Report) : Std.ExtTreeMap String Nat compare :=
  r.diagnostics.foldl (fun counts d =>
    counts.insert d.code.name (counts.getD d.code.name 0 + 1)) ∅

/-- The findings that are located at an artifact or involve it (`diagnostics_for`). -/
def diagnosticsFor (r : Report) (id : String) : List Diagnostic :=
  r.diagnostics.filter (·.concerns id)

def hasErrors (r : Report) : Bool := 0 < r.summary.errors

/-! ## Reading and writing -/

def known : List String := ["version", "timestamp", "summary", "diagnostics", "metadata"]

def focus : Json.Focus :=
  .record
    [("version", SchemaVersion.focus), ("timestamp", .whole), ("summary", Summary.focus),
      ("diagnostics", .each Diagnostic.focus), ("metadata", .whole)]
    .nothing

def ofJson? : Json → Option Report
  | .obj fields =>
    if Json.distinct known fields then do
      let version ← Json.required "version" SchemaVersion.ofJson? fields
      let timestamp ← Json.required "timestamp" Json.text fields
      let summary ← Json.required "summary" Summary.ofJson? fields
      let diagnostics ← Json.required "diagnostics" (Json.listOf Diagnostic.ofJson?) fields
      let metadata ← Json.optional "metadata" Json.any fields
      return { version, timestamp, summary, diagnostics, metadata }
    else none
  | .arr [version, timestamp, summary, diagnostics, metadata] => do
    return { version := ← SchemaVersion.ofJson? version
             timestamp := ← timestamp.text
             summary := ← Summary.ofJson? summary
             diagnostics := ← Json.listOf Diagnostic.ofJson? diagnostics
             metadata := ← Json.orNull Json.any metadata }
  | _ => none

def toJson (r : Report) : Json :=
  .obj ([("version", r.version.toJson), ("timestamp", .str r.timestamp),
      ("summary", r.summary.toJson), ("diagnostics", .arr (r.diagnostics.map Diagnostic.toJson))]
    ++ Json.optionalField "metadata" id r.metadata)

def parse? (text : String) : Option Report := (Json.parseFor? focus text).bind ofJson?

/-- The text of a report, one part to a line (`to_json`). -/
def toText (r : Report) : String := r.toJson.pretty

end Report

end Lineage
