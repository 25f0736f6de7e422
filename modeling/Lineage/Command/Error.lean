import Lineage.Manifest.Link
import Lineage.Resolve.Name
import Lineage.Selector
import Lineage.Storage

/-!
# Command errors

Why a command cannot answer, and how that is printed: a description, and behind it what caused it.
-/

namespace Lineage

inductive CommandError where
  | config (e : ConfigError)
  | noManifest (path : String)
  | manifest (e : ManifestError)
  | noProject
  /-- The graph cannot be built. -/
  | link (e : GraphError)
  /-- The graph that is validated cannot be built. -/
  | validation (e : GraphError)
  /-- The test edges cannot be added. -/
  | testEdges (e : GraphError)
  | graph (e : GraphError)
  | selector (e : SelectorError)
  | severalNodes (name : String) (ids : List NodeId)
  | noNode (name project : String)
  | adapter (e : UnknownParent)
  /-- A lookup without a result, where that is no defect of the manifest. -/
  | noResult (kind : LookupKind) (label : String)
  | maps (path : String) (e : FileError)
  | report (e : FileError)
deriving DecidableEq, Repr

namespace CommandError

/-- The description, followed by its causes from the outermost to the innermost. -/
def texts : CommandError → String × List String
  | .config e => (e.message, [])
  | .noManifest path =>
    ("Manifest not found at " ++ path ++ ". Run 'dbt compile' or 'dbt build' first.", [])
  | .manifest e => ("Failed to load manifest", [e.message])
  | .noProject =>
    ("No project name in the manifest metadata; set project_name in dagrefly.toml", [])
  | .link e => ("Failed to build dependency graph", [Manifest.linkMessage e, e.message])
  | .validation e => ("Failed to validate manifest", [Manifest.linkMessage e, e.message])
  | .testEdges e => (Manifest.linkMessage e, [e.message])
  | .graph e => (e.message, [])
  | .selector e => (e.message, [])
  | .severalNodes name ids =>
    ("'" ++ name ++ "' matches several nodes: " ++ ", ".intercalate ids
      ++ ". Use the full unique_id.", [])
  | .noNode name project =>
    ("Node '" ++ name ++ "' not found in manifest. Try using the full unique_id (e.g., 'model."
      ++ project ++ "." ++ name ++ "')", [])
  | .adapter e => (e.message, [])
  | .noResult kind label => ("No " ++ kind.name ++ " found for '" ++ label ++ "'", [])
  | .maps path e => ("Failed to write " ++ path, [e.message])
  | .report e => (e.message, [])

/-- A text that starts with `head`; its further lines are indented as far. -/
def indented (head text : String) : String :=
  head ++ ("\n" ++ "".pushn ' ' head.length).intercalate (text.splitOn "\n")

/-- The causes, one below the other, with numbers if there are several. -/
def causeLines (causes : List String) : List String :=
  match causes with
  | [cause] => [indented "    " cause]
  | causes => causes.zipIdx.map fun (cause, i) => indented ("    " ++ toString i ++ ": ") cause

/-- What is printed about an error. -/
def printed (e : CommandError) : String :=
  match e.texts with
  | (text, []) => "Error: " ++ text ++ "\n"
  | (text, causes) =>
    "Error: " ++ text ++ "\n\nCaused by:\n" ++ "\n".intercalate (causeLines causes) ++ "\n"

end CommandError

end Lineage
