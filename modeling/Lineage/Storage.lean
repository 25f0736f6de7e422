import Lineage.Config
import Lineage.FileTree
import Lineage.Manifest.Basic
import Lineage.Report

/-!
# Loading and saving

Manifests, configurations and reports as files of a host.
-/

namespace Lineage

/-! ## Manifests -/

/-- Why a manifest cannot be loaded or saved. -/
inductive ManifestError where
  | file (path : String) (e : FileError)
  /-- The text is not JSON, or not that of a manifest. -/
  | malformed
deriving DecidableEq, Repr

def ManifestError.message : ManifestError → String
  | .file path e => "Failed to read manifest file " ++ path ++ ": " ++ e.message
  | .malformed => "Failed to parse manifest JSON: not the text of a manifest"

/-- Loads a manifest (`from_file`). -/
def Manifest.load [Monad m] (host : Host m) (path : String) :
    m (Except ManifestError Manifest) := do
  match ← host.readText path with
  | .error e => return .error (.file path e)
  | .ok text => return (Manifest.parse? text).elim (.error .malformed) .ok

/-- Writes a manifest to a file (`write`). -/
def Manifest.save [Monad m] (host : Host m) (path : String) (manifest : Manifest) :
    m (Except ManifestError Unit) :=
  return (← host.write path manifest.toText).mapError (.file path)

/-! ## Configurations -/

/-- Why a configuration cannot be loaded or saved. -/
inductive ConfigError where
  | file (path : String) (e : FileError)
  /-- The text is not TOML, or not that of a configuration. -/
  | malformed
deriving DecidableEq, Repr

def ConfigError.message : ConfigError → String
  | .file path e => "IO error reading " ++ path ++ ": " ++ e.message
  | .malformed => "Parse error: not the text of a configuration"

/-- Loads a configuration (`from_file`). It applies to the directory that it lies in. -/
def Config.load [Monad m] (host : Host m) (path : String) : m (Except ConfigError Config) := do
  match ← host.readText path with
  | .error e => return .error (.file path e)
  | .ok text =>
    return (Config.parse? text).elim (.error .malformed) fun c =>
      .ok { c with projectRoot := Path.parent path }

/-- Writes a configuration to a file (`save_to_file`). -/
def Config.save [Monad m] (host : Host m) (path : String) (config : Config) :
    m (Except ConfigError Unit) :=
  return (← host.write path config.toText).mapError (.file path)

/-! ## Reports -/

/-- Writes a report to a file (`save_to_file`). -/
def Report.save [Monad m] (host : Host m) (path : String) (report : Report) :
    m (Except FileError Unit) :=
  host.write path report.toText

end Lineage
