import Lineage.Command.Options

/-!
# Commands

What can be asked for on the command line, and how it is written. The settings that all commands
share stand anywhere; where they are given again behind the command, the later ones count.
-/

namespace Lineage

/-- The settings that all commands share (`Cli`). -/
structure Settings where
  config : Option String := none
  manifest : String := "target/manifest.json"
  /-- Whether the graph is built one artifact at a time. -/
  incremental : Bool := false
  verbose : Bool := false
deriving DecidableEq, Repr

/-- What a reference is looked up as (`ResolveTarget`). -/
inductive Reference where
  | ref (name : String) (package version fromPackage : Option String)
  | source (sourceName tableName : String) (fromPackage : Option String)
  | doc (name : String) (package fromPackage : Option String)
  | macroDef (name : String) (package : Option String)
  | materialization (name : String)
deriving DecidableEq, Repr

/-- What a command line asks for (`Commands`). -/
inductive Command where
  /-- Prints the run order, of everything or of what is selected. -/
  | plan (selectors : List String) (withTests : Bool)
  /-- Prints what depends on a node. -/
  | impact (node : String)
  /-- Prints what a reference means. -/
  | resolve (reference : Reference)
  /-- Writes the derived maps. -/
  | maps (output : Option String)
  /-- Prints the report about the manifest, and writes it to a file. -/
  | validate (output : Option String)
  /-- Prints a cycle. -/
  | cycle
deriving DecidableEq, Repr

/-- A command line. -/
structure Invocation where
  settings : Settings
  command : Command
deriving DecidableEq, Repr

namespace Command

open CommandOption

/-! ## The options -/

def shared : List CommandOption :=
  [{ long := "config", short := some 'c', parameter := .path },
    { long := "manifest", short := some 'f', parameter := .path },
    { long := "incremental", parameter := .flag },
    { long := "verbose", short := some 'v', parameter := .flag }]

def selectOption : CommandOption := { long := "select", short := some 's', repeatable := true }
def withTestsOption : CommandOption := { long := "with-tests", parameter := .flag }
def outputOption : CommandOption := { long := "output", short := some 'o', parameter := .path }
def packageOption : CommandOption := { long := "package", short := some 'p' }
def versionOption : CommandOption := { long := "version" }
def fromPackageOption : CommandOption := { long := "from-package" }

/-! ## Reading -/

/-- Reads what stands behind the name of a command, with the options of its own. -/
def tail? (own : List CommandOption) (words : List String) : Option Scan :=
  CommandOption.read? (shared ++ own) false words

/-- Reads a reference with the options that were given for it. -/
def reference? (kind : String) (rest : List String) : Option (List Given × Reference) :=
  match kind with
  | "ref" => do
    let scan ← tail? [packageOption, versionOption, fromPackageOption] rest
    let [name] := scan.words | none
    return (scan.given, .ref name (valueOf? "package" scan.given) (valueOf? "version" scan.given)
      (valueOf? "from-package" scan.given))
  | "source" => do
    let scan ← tail? [fromPackageOption] rest
    let [sourceName, tableName] := scan.words | none
    return (scan.given, .source sourceName tableName (valueOf? "from-package" scan.given))
  | "doc" => do
    let scan ← tail? [packageOption, fromPackageOption] rest
    let [name] := scan.words | none
    return (scan.given, .doc name (valueOf? "package" scan.given)
      (valueOf? "from-package" scan.given))
  | "macro" => do
    let scan ← tail? [packageOption] rest
    let [name] := scan.words | none
    return (scan.given, .macroDef name (valueOf? "package" scan.given))
  | "materialization" => do
    let scan ← tail? [] rest
    let [name] := scan.words | none
    return (scan.given, .materialization name)
  | _ => none

/-- Reads a command with the options that were given for it. -/
def command? (name : String) (rest : List String) : Option (List Given × Command) :=
  match name with
  | "plan" => do
    let scan ← tail? [selectOption, withTestsOption] rest
    let [] := scan.words | none
    return (scan.given, .plan (valuesOf "select" scan.given) (isGiven "with-tests" scan.given))
  | "impact" => do
    let scan ← tail? [] rest
    let [node] := scan.words | none
    return (scan.given, .impact node)
  | "resolve" => do
    let scan ← CommandOption.read? shared true rest
    let [kind] := scan.words | none
    let (given, reference) ← reference? kind scan.rest
    return (scan.given ++ given, .resolve reference)
  | "maps" => do
    let scan ← tail? [outputOption] rest
    let [] := scan.words | none
    return (scan.given, .maps (valueOf? "output" scan.given))
  | "validate" => do
    let scan ← tail? [outputOption] rest
    let [] := scan.words | none
    return (scan.given, .validate (valueOf? "output" scan.given))
  | "cycle" => do
    let scan ← tail? [] rest
    let [] := scan.words | none
    return (scan.given, .cycle)
  | _ => none

end Command

def Settings.ofGiven (given : List CommandOption.Given) : Settings where
  config := CommandOption.valueOf? "config" given
  manifest := (CommandOption.valueOf? "manifest" given).getD "target/manifest.json"
  incremental := CommandOption.isGiven "incremental" given
  verbose := CommandOption.isGiven "verbose" given

/-- Reads a command line; none if it is not one. -/
def Invocation.parse? (words : List String) : Option Invocation := do
  let scan ← CommandOption.read? Command.shared true words
  let [name] := scan.words | none
  let (given, command) ← Command.command? name scan.rest
  return { settings := .ofGiven (scan.given ++ given), command }

end Lineage
