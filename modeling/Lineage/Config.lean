import Lineage.Adapter
import Lineage.Diagnostic
import Lineage.Toml.Printer
import Lineage.Toml.Reader

/-!
# Configuration

What a project can set: its name and adapter, how names are resolved, how serious findings are, and
adapters beside the builtin ones.
-/

namespace Lineage

/-- How names are resolved (`ResolutionConfig`). -/
structure ResolutionPolicy where
  /-- Whether imported packages may replace builtin materializations. -/
  allowPackageOverride : Bool := true
  /-- Whether a macro name that two packages of one rank define is an error. Otherwise the package
  whose name comes first wins. -/
  strictMacroAmbiguity : Bool := true
deriving DecidableEq, Repr, Inhabited

/-- An adapter that the configuration declares (`AdapterConfig`). -/
structure AdapterConfig where
  /-- The package that holds its macros. -/
  package : String
  /-- The type it inherits from. -/
  parent : Option String := none
deriving DecidableEq, Repr

structure Config where
  projectName : Option String := none
  adapterType : Option String := none
  resolution : ResolutionPolicy := {}
  /-- Severities by the name of a code. -/
  severityOverrides : Std.ExtTreeMap String Severity compare := ∅
  /-- Adapters by type. -/
  adapters : Std.ExtTreeMap String AdapterConfig compare := ∅
  /-- The directory that the configuration applies to. -/
  projectRoot : String := ""
deriving DecidableEq, Inhabited

namespace Config

/-- The severity of a code (`get_severity`): the one set for it, or else `fallback`. -/
def severityOf (c : Config) (code : DiagnosticCode) (fallback : Severity) : Severity :=
  c.severityOverrides.getD code.name fallback

/-- Sets the severity of a code (`set_override`). -/
def setSeverity (c : Config) (code : DiagnosticCode) (severity : Severity) : Config :=
  { c with severityOverrides := c.severityOverrides.insert code.name severity }

/-- The project's name, or else `fallback` (`project_name_or`). -/
def projectNameOr (c : Config) (fallback : Option String) : Option String :=
  c.projectName.or fallback

/-- The adapter's type, or else `fallback` (`adapter_type_or`). -/
def adapterTypeOr (c : Config) (fallback : Option String) : Option String :=
  c.adapterType.or fallback

/-- The builtin adapters together with the configured ones, which come first where both define a
type (`from_config`). Every parent has to be registered, or be the default type; the first that is
missing in the lineup is the error. -/
def registry (c : Config) (lineup : Lineup := .byType) : Except UnknownParent Registry :=
  let registry := Registry.builtin.registerAll
    (c.adapters.toList.map fun (type, a) => ⟨type, a.package, a.parent⟩)
  match registry.unknownParent? lineup with
  | some e => .error e
  | none => .ok registry

end Config

/-! ## Reading -/

/-- Reads a policy: a table, or an array with both flags by position. A date or time counts as a
table without any known entry. -/
def ResolutionPolicy.ofToml? : Toml → Option ResolutionPolicy
  | .table entries => do
    let allowPackageOverride ← Toml.defaulted "allow_package_override" Toml.flag true entries
    let strictMacroAmbiguity ← Toml.defaulted "strict_macro_ambiguity" Toml.flag true entries
    return { allowPackageOverride, strictMacroAmbiguity }
  | .array items => do
    let allowPackageOverride ← Toml.itemOr Toml.flag true items[0]?
    let strictMacroAmbiguity ← Toml.itemOr Toml.flag true items[1]?
    return { allowPackageOverride, strictMacroAmbiguity }
  | .datetime => some {}
  | _ => none

/-- Reads an adapter: a table, or an array with its package and parent by position. -/
def AdapterConfig.ofToml? : Toml → Option AdapterConfig
  | .table entries => do
    let package ← (entries.lookup "package").bind Toml.text
    let parent ← Toml.optional "parent" Toml.text entries
    return { package, parent }
  | .array (package :: rest) => do
    let package ← package.text
    let parent ← Toml.itemOr (fun value => (Toml.text value).map some) none rest.head?
    return { package, parent }
  | _ => none

namespace Config

/-- Reads every entry of a table. -/
def tableOf (read : Toml → Option α) : Toml → Option (Std.ExtTreeMap String α compare)
  | .table entries =>
    (entries.mapM fun entry => (read entry.2).map (entry.1, ·)).map
      fun entries => Std.ExtTreeMap.ofList entries compare
  | _ => none

def overrides : Toml → Option (Std.ExtTreeMap String Severity compare) :=
  tableOf (Toml.choice Severity.ofName?)

/-- Reads the overrides out of the table around them, or out of an array by position
(`SeverityThreshold`). A date or time counts as a table without any known entry. -/
def severityTable : Toml → Option (Std.ExtTreeMap String Severity compare)
  | .table entries => Toml.defaulted "overrides" overrides ∅ entries
  | .array items => Toml.itemOr overrides ∅ items.head?
  | .datetime => some ∅
  | _ => none

/-- Reads a configuration out of a document (in `from_toml`); entries with other names are
ignored. -/
def ofToml? : Toml → Option Config
  | .table entries => do
    let projectName ← Toml.optional "project_name" Toml.text entries
    let adapterType ← Toml.optional "adapter_type" Toml.text entries
    let resolution ← Toml.defaulted "resolution" ResolutionPolicy.ofToml? {} entries
    let severityOverrides ← Toml.defaulted "severity" severityTable ∅ entries
    let adapters ← Toml.defaulted "adapters" (tableOf AdapterConfig.ofToml?) ∅ entries
    return { projectName, adapterType, resolution, severityOverrides, adapters }
  | _ => none

/-- Reads a configuration from a text (`from_toml`). -/
def parse? (text : String) : Option Config := (Toml.parse? text).bind ofToml?

/-! ## Writing -/

def adapterText (type : String) (a : AdapterConfig) : String :=
  Toml.headerLine ("adapters." ++ Toml.quoted type)
    ++ Toml.pairLine "package" (Toml.quoted a.package) ++ Toml.optionalPair "parent" a.parent

/-- The text of a configuration (`save_to_file`). The directory that it applies to is not part of
it. -/
def toText (c : Config) : String :=
  Toml.optionalPair "project_name" c.projectName
    ++ Toml.optionalPair "adapter_type" c.adapterType
    ++ Toml.headerLine "resolution"
    ++ Toml.pairLine "allow_package_override" (Toml.flagText c.resolution.allowPackageOverride)
    ++ Toml.pairLine "strict_macro_ambiguity" (Toml.flagText c.resolution.strictMacroAmbiguity)
    ++ Toml.headerLine "severity.overrides"
    ++ String.join (c.severityOverrides.toList.map fun (code, severity) =>
        Toml.pairLine (Toml.quoted code) (Toml.quoted severity.name))
    ++ String.join (c.adapters.toList.map fun (type, a) => adapterText type a)

end Config

end Lineage
