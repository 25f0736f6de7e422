import Lineage.Diagnostic
import Lineage.Manifest.Basic

/-!
# Resolving names

Which artifact a reference means. Without a package, candidates are ranked by theirs: first the
package of the artifact that holds the reference, then the root project, then all others. Several
candidates of the best rank are reported, never guessed.
-/

namespace Lineage

/-- The outcome of a lookup. -/
inductive Resolution where
  | found (id : NodeId)
  | notFound
  /-- Several candidates of one rank, in identity order. -/
  | ambiguous (ids : List NodeId)
deriving DecidableEq, Repr

/-- What a lookup is for. -/
inductive LookupKind where
  | ref
  | source
  | doc
  | macroDef
deriving DecidableEq, Repr

namespace LookupKind

def all : List LookupKind := [ref, source, doc, macroDef]

def name : LookupKind → String
  | ref => "ref"
  | source => "source"
  | doc => "doc"
  | macroDef => "macro"

def ofName? (s : String) : Option LookupKind := all.find? (·.name == s)

/-- The code for several candidates of one rank (`ambiguous_code`). -/
def ambiguousCode : LookupKind → DiagnosticCode
  | ref | source => .refAmbiguous
  | doc => .docAmbiguous
  | macroDef => .macroAmbiguous

/-- The code for a lookup without a candidate, where that is a defect (`not_found_code`). -/
def notFoundCode? : LookupKind → Option DiagnosticCode
  | ref => some .refNotFound
  | macroDef => some .macroNotFound
  | source | doc => none

end LookupKind

/-- A lookup with several candidates of one rank (`ResolveError`). -/
structure Ambiguity where
  kind : LookupKind
  name : String
  candidates : List NodeId
deriving DecidableEq, Repr

namespace Ambiguity

def code (a : Ambiguity) : DiagnosticCode := a.kind.ambiguousCode

def message (a : Ambiguity) : String :=
  a.kind.name ++ " '" ++ a.name ++ "' is ambiguous; candidates: " ++ ", ".intercalate a.candidates

/-- The ambiguity as a finding that lists the candidates (`to_diagnostic`). -/
def toDiagnostic (a : Ambiguity) : Diagnostic :=
  { code := a.code, severity := .error, message := a.message, related := a.candidates }

end Ambiguity

/-- The artifact that was found, if any (`into_result`); several candidates are an error. -/
def Resolution.toResult (r : Resolution) (kind : LookupKind) (name : String) :
    Except Ambiguity (Option NodeId) :=
  match r with
  | .found id => .ok (some id)
  | .notFound => .ok none
  | .ambiguous ids => .error ⟨kind, name, ids⟩

/-- An artifact that a name could mean. -/
structure Candidate where
  id : NodeId
  package : String
deriving DecidableEq, Repr

/-- Where a reference stands. -/
structure Scope where
  /-- The root project. -/
  project : String
  /-- The package of the artifact that holds the reference. -/
  package : String
deriving DecidableEq, Repr

/-! ## Ranking -/

/-- One candidate is found, several are ambiguous (`pick`). -/
def pick : List Candidate → Resolution
  | [] => .notFound
  | [c] => .found c.id
  | candidates => .ambiguous ((candidates.map (·.id)).mergeSort (· ≤ ·))

/-- The candidates of one package (in `rank`). -/
def inPackage (package : String) (candidates : List Candidate) : List Candidate :=
  candidates.filter (·.package == package)

/-- The candidates of the best rank, or of the given package (in `rank`). -/
def bestRanked (scope : Scope) (package : Option String) (candidates : List Candidate) :
    List Candidate :=
  match package with
  | some package => inPackage package candidates
  | none =>
    match inPackage scope.package candidates with
    | [] =>
      match inPackage scope.project candidates with
      | [] => candidates
      | best => best
    | best => best

/-- The outcome among the candidates of the best rank (`rank`). -/
def rank (scope : Scope) (package : Option String) (candidates : List Candidate) : Resolution :=
  pick (bestRanked scope package candidates)

/-! ## Versions -/

/-- The later of two nodes by version (`compare_versions`); the second where neither is later. -/
def laterVersion (a b : Node) : Node :=
  match Version.order (a.versionText.getD "") (b.versionText.getD "") with
  | .gt => a
  | _ => b

/-- Whether a node's version is the one that it names as the latest (in `collapse_versions`). -/
def isLatest (n : Node) : Bool := n.latestVersionText.isSome && n.versionText == n.latestVersionText

/-- The node to use of several versions (in `collapse_versions`): the first that is the latest by
its own word, or else the one with the highest version. -/
def preferredVersion : List Node → Option Node
  | [] => none
  | first :: rest => some (((first :: rest).find? isLatest).getD (rest.foldl laterVersion first))

/-- Of several nodes of one package, all with a version, only the preferred one stays
(in `collapse_versions`). -/
def collapsePackage (nodes : List Node) : List Node :=
  if 1 < nodes.length && nodes.all (·.version.isSome) then (preferredVersion nodes).toList
  else nodes

/-- The candidates among nodes of one name (`collapse_versions`): package by package, one of several
versions. -/
def collapseVersions (nodes : List Node) : List Candidate :=
  let packages := (Std.ExtTreeSet.ofList (nodes.map (·.packageName)) compare).toList
  packages.flatMap fun package =>
    (collapsePackage (nodes.filter (·.packageName == package))).map (⟨·.uniqueId, package⟩)

/-! ## Lookups -/

namespace Manifest

/-- The nodes that `ref(name)` can mean, or `ref(name, v=version)` (in `resolve_ref`); the version
is in its normal form. -/
def refTargets (m : Manifest) (name : String) (version : Option String) : List Node :=
  m.nodes.values.filter fun n =>
    n.resourceType.isRefable && n.name == name
      && version.all fun v => n.versionText == some v

/-- Resolves `ref(name)`, `ref(package, name)` and `ref(name, v=version)` (`resolve_ref`). -/
def resolveRef (m : Manifest) (scope : Scope) (name : String) (package version : Option String) :
    Resolution :=
  let version := version.map Version.normalize
  let targets := m.refTargets name version
  let candidates :=
    if version.isSome then targets.map fun n => ⟨n.uniqueId, n.packageName⟩
    else collapseVersions targets
  rank scope package candidates

/-- The place of a package among those that define a source (in `resolve_source`): the root project,
the package of the reference, any other. -/
def sourcePriority (scope : Scope) (package : String) : Nat :=
  if package = scope.project then 0 else if package = scope.package then 1 else 2

/-- The order in which sources are preferred (in `resolve_source`). -/
def sourceBefore (scope : Scope) (a b : Source) : Bool :=
  let p := sourcePriority scope a.packageName
  let q := sourcePriority scope b.packageName
  p < q || (p == q && a.uniqueId ≤ b.uniqueId)

/-- Resolves `source(sourceName, name)` (`resolve_source`). Several sources of that name are a
defect that validation reports; the first by package and identity is taken. -/
def resolveSource (m : Manifest) (scope : Scope) (sourceName name : String) : Resolution :=
  let matching := m.sources.values.filter fun s => s.sourceName == sourceName && s.name == name
  match matching.mergeSort (sourceBefore scope) with
  | [] => .notFound
  | first :: _ => .found first.uniqueId

/-- Resolves `doc(name)` and `doc(package, name)` (`resolve_doc`). -/
def resolveDoc (m : Manifest) (scope : Scope) (name : String) (package : Option String) :
    Resolution :=
  rank scope package
    ((m.docs.values.filter (·.name == name)).map fun d => ⟨d.uniqueId, d.packageName⟩)

/-- Resolves the name of a resource in one collection (`resolve_resource`). -/
def resolveResource (c : Collection Resource) (scope : Scope) (name : String)
    (package : Option String) : Resolution :=
  rank scope package
    ((c.values.filter (·.name == name)).map fun r => ⟨r.uniqueId, r.packageName⟩)

def resolveMetric (m : Manifest) : Scope → String → Option String → Resolution :=
  resolveResource m.metrics

def resolveSemanticModel (m : Manifest) : Scope → String → Option String → Resolution :=
  resolveResource m.semanticModels

def resolveSavedQuery (m : Manifest) : Scope → String → Option String → Resolution :=
  resolveResource m.savedQueries

end Manifest

end Lineage
