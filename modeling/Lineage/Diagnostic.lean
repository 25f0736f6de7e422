import Lineage.Json.Decode
import Lineage.Json.Focus

/-!
# Diagnostics

Findings about a manifest. Codes are stable: tools match on their names.
-/

namespace Lineage

/-- How serious a finding is, in ascending order. -/
inductive Severity where
  | info
  | warn
  | error
deriving DecidableEq, Repr

namespace Severity

def all : List Severity := [info, warn, error]

def name : Severity → String
  | info => "info"
  | warn => "warn"
  | error => "error"

/-- The place of a severity in the order, from the least serious one. -/
def level : Severity → Nat
  | info => 0
  | warn => 1
  | error => 2

instance : LT Severity := ⟨fun a b => a.level < b.level⟩
instance (a b : Severity) : Decidable (a < b) := inferInstanceAs (Decidable (a.level < b.level))

def ofName? (s : String) : Option Severity := all.find? (·.name == s)

def ofJson? : Json → Option Severity := Json.choice ofName?

def toJson (s : Severity) : Json := .str s.name

end Severity

/-- What a finding is about. -/
inductive DiagnosticCode where
  /-- The dependency graph has a cycle. -/
  | graphCycle
  /-- A declared dependency does not exist. -/
  | graphDanglingDependency
  /-- A reference has several candidates of one rank. -/
  | refAmbiguous
  /-- A reference has no candidate. -/
  | refNotFound
  /-- Two targets of references share package, name and version. -/
  | refDuplicateInPackage
  /-- Two sources share source and table name. -/
  | sourceDuplicate
  /-- A documentation reference has several candidates of one rank. -/
  | docAmbiguous
  /-- A macro name is defined by several packages of one rank. -/
  | macroAmbiguous
  /-- A macro that is called does not exist. -/
  | macroNotFound
  | info
  | warning
deriving DecidableEq, Repr

namespace DiagnosticCode

def all : List DiagnosticCode :=
  [graphCycle, graphDanglingDependency, refAmbiguous, refNotFound, refDuplicateInPackage,
    sourceDuplicate, docAmbiguous, macroAmbiguous, macroNotFound, info, warning]

/-- The written form of a code (`as_str`). -/
def name : DiagnosticCode → String
  | graphCycle => "GRAPH_CYCLE"
  | graphDanglingDependency => "GRAPH_DANGLING_DEPENDENCY"
  | refAmbiguous => "REF_AMBIGUOUS"
  | refNotFound => "REF_NOT_FOUND"
  | refDuplicateInPackage => "REF_DUPLICATE_IN_PACKAGE"
  | sourceDuplicate => "SOURCE_DUPLICATE"
  | docAmbiguous => "DOC_AMBIGUOUS"
  | macroAmbiguous => "MACRO_AMBIGUOUS"
  | macroNotFound => "MACRO_NOT_FOUND"
  | info => "INFO"
  | warning => "WARNING"

def ofName? (s : String) : Option DiagnosticCode := all.find? (·.name == s)

def ofJson? : Json → Option DiagnosticCode := Json.choice ofName?

def toJson (c : DiagnosticCode) : Json := .str c.name

end DiagnosticCode

/-- The artifact that a finding is located at and, where known, the file that defines it. -/
structure Location where
  uniqueId : String
  file : Option String := none
deriving DecidableEq, Repr

namespace Location

def known : List String := ["unique_id", "file"]

def focus : Json.Focus := .only known

/-- Reads a location: an object, or an array with both fields by position. -/
def ofJson? : Json → Option Location
  | .obj fields =>
    if Json.distinct known fields then do
      let uniqueId ← Json.required "unique_id" Json.text fields
      let file ← Json.optional "file" Json.text fields
      return { uniqueId, file }
    else none
  | .arr [uniqueId, file] => do
    return { uniqueId := ← uniqueId.text, file := ← Json.orNull Json.text file }
  | _ => none

def toJson (l : Location) : Json :=
  .obj (("unique_id", .str l.uniqueId) :: Json.optionalField "file" .str l.file)

end Location

/-- One finding. -/
structure Diagnostic where
  code : DiagnosticCode
  severity : Severity
  message : String
  location : Option Location := none
  /-- The artifacts that are involved. -/
  related : List String := []
deriving DecidableEq, Repr

namespace Diagnostic

def known : List String := ["code", "severity", "message", "location", "related"]

def focus : Json.Focus :=
  .record
    [("code", .whole), ("severity", .whole), ("message", .whole), ("location", Location.focus),
      ("related", .whole)]
    .nothing

/-- Reads a finding: an object, or an array with its fields by position, of which the last may be
missing. -/
def ofJson? : Json → Option Diagnostic
  | .obj fields =>
    if Json.distinct known fields then do
      let code ← Json.required "code" DiagnosticCode.ofJson? fields
      let severity ← Json.required "severity" Severity.ofJson? fields
      let message ← Json.required "message" Json.text fields
      let location ← Json.optional "location" Location.ofJson? fields
      let related ← Json.defaulted "related" (Json.listOf Json.text) [] fields
      return { code, severity, message, location, related }
    else none
  | .arr (code :: severity :: message :: location :: rest) => do
    let code ← DiagnosticCode.ofJson? code
    let severity ← Severity.ofJson? severity
    let message ← message.text
    let location ← Json.orNull Location.ofJson? location
    let related ← match rest with
      | [] => some []
      | [related] => Json.listOf Json.text related
      | _ => none
    return { code, severity, message, location, related }
  | _ => none

def toJson (d : Diagnostic) : Json :=
  .obj ([("code", d.code.toJson), ("severity", d.severity.toJson), ("message", .str d.message),
      ("location", (d.location.map Location.toJson).getD .null)]
    ++ if d.related.isEmpty then [] else [("related", Json.strings d.related)])

/-- Whether a finding is located at an artifact or involves it (in `diagnostics_for`). -/
def concerns (d : Diagnostic) (id : String) : Bool :=
  d.location.any (·.uniqueId == id) || d.related.contains id

end Diagnostic

end Lineage
