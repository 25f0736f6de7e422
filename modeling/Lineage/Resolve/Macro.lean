import Lineage.Config
import Lineage.Resolve.Name

/-!
# Resolving macros

Packages fall into three tiers: the root project, imported packages, and the packages internal to
the adapter. A macro of a higher tier hides those of the same name below it. Two imported packages
with one name are ambiguous, or the first of them by name is taken, as the policy says.
-/

namespace Lineage

/-- The tier of a package, lowest first. -/
inductive Locality where
  | core
  | imported
  | root
deriving DecidableEq, Repr

namespace Locality

/-- The written form. -/
def name : Locality → String
  | core => "Core"
  | imported => "Imported"
  | root => "Root"

/-- How many tiers lie above. -/
def depth : Locality → Nat
  | root => 0
  | imported => 1
  | core => 2

end Locality

/-- A macro that a name could mean. -/
structure MacroCandidate where
  uniqueId : NodeId
  packageName : String
  locality : Locality
deriving DecidableEq, Repr

/-- Looks macros up for one project and adapter. -/
structure MacroResolver where
  macros : List MacroDef
  rootProject : String
  /-- The adapter's type and those it inherits from, ending with the default type. -/
  typeChain : List String
  /-- The packages internal to the adapter, in the order they are searched. -/
  internalPackages : List String
  policy : ResolutionPolicy

namespace MacroResolver

/-- The resolver for the macros of a manifest (`new`). -/
def ofManifest (m : Manifest) (rootProject adapterType : String) (registry : Registry)
    (policy : ResolutionPolicy) : MacroResolver where
  macros := m.macros.values
  rootProject := rootProject
  typeChain := registry.typeChain adapterType
  internalPackages := registry.internalPackages adapterType
  policy := policy

/-- The tier of a package (`locality`). -/
def locality (r : MacroResolver) (package : String) : Locality :=
  if package = r.rootProject then .root
  else if r.internalPackages.contains package then .core
  else .imported

/-- The place of a package among the internal ones (`internal_rank`); other packages come after all
of them. -/
def internalRank (r : MacroResolver) (package : String) : Nat := r.internalPackages.idxOf package

/-- The order of candidates (in `find_macros_by_name`): by tier, then by the place among internal
packages, then by package name. -/
def before (r : MacroResolver) (a b : MacroCandidate) : Bool :=
  let key (c : MacroCandidate) : Nat × Nat := (c.locality.depth, r.internalRank c.packageName)
  match compareLex (compareOn (·.1)) (compareOn (·.2)) (key a) (key b) with
  | .lt => true
  | .eq => a.packageName ≤ b.packageName
  | .gt => false

/-- Every macro of this name, best first (`find_macros_by_name`). -/
def candidates (r : MacroResolver) (name : String) : List MacroCandidate :=
  ((r.macros.filter (·.name == name)).map fun d =>
    (⟨d.uniqueId, d.packageName, r.locality d.packageName⟩ : MacroCandidate)).mergeSort r.before

/-- Takes the best of sorted candidates (`pick`). If that is imported and not the only imported one,
the strict policy refuses. -/
def choose (r : MacroResolver) (name : String) (candidates : List MacroCandidate) :
    Except Ambiguity (Option NodeId) :=
  match candidates with
  | [] => .ok none
  | best :: _ =>
    let tied := (candidates.filter (·.locality == .imported)).map (·.uniqueId)
    if best.locality = .imported ∧ 1 < tied.length ∧ r.policy.strictMacroAmbiguity then
      .error ⟨.macroDef, name, tied⟩
    else .ok (some best.uniqueId)

/-- The macro of this name (`find_macro_by_name`). With a package, its first macro of that name is
taken. -/
def find (r : MacroResolver) (name : String) (package : Option String) :
    Except Ambiguity (Option NodeId) :=
  match package with
  | some package =>
    .ok (((r.candidates name).find? (·.packageName == package)).map (·.uniqueId))
  | none => r.choose name (r.candidates name)

/-- The candidates that implement a materialization, for each type of the chain
(in `find_materialization_macro_by_name`). -/
def materializationCandidates (r : MacroResolver) (materialization : String) :
    List (String × List MacroCandidate) :=
  r.typeChain.map fun type =>
    let name := materializationName materialization type
    (name, r.candidates name)

/-- The macro that implements a materialization (`find_materialization_macro_by_name`): the best one
for the first type of the chain that has any. Where overrides are not allowed and an internal
package implements it for some type, the imported ones do not count. -/
def findMaterialization (r : MacroResolver) (materialization : String) :
    Except Ambiguity (Option NodeId) :=
  let perType := r.materializationCandidates materialization
  let hasCore := perType.any fun (_, cs) => cs.any (·.locality == .core)
  let usable (c : MacroCandidate) : Bool :=
    r.policy.allowPackageOverride || !hasCore || c.locality != .imported
  match (perType.map fun (name, cs) => (name, cs.filter usable)).find? (!·.2.isEmpty) with
  | some (name, cs) => r.choose name cs
  | none => .ok none

/-- The macro `generate_<component>_name` (`find_generate_macro_by_name`): the root project's, or
else the given package's, or else the first internal one. -/
def findGenerator (r : MacroResolver) (component : String) (package : Option String) :
    Option NodeId :=
  let cs := r.candidates ("generate_" ++ component ++ "_name")
  let inPackage (package : String) := cs.find? (·.packageName == package)
  (((inPackage r.rootProject).or (package.bind inPackage)).or
    (cs.find? (·.locality == .core))).map (·.uniqueId)

end MacroResolver

end Lineage
