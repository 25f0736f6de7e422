import Lineage.Command.Basic
import Lineage.Command.Error

/-!
# Workspaces

What every command works on: the configuration, the manifest, and the names that follow from both.
-/

namespace Lineage

structure Workspace where
  config : Config
  manifest : Manifest
  /-- The root project. -/
  project : String
  adapterType : String
  strategy : LinkStrategy

namespace Workspace

/-- The configuration that is used unless another is named. -/
def defaultConfigPath : String := "dagrefly.toml"

/-- Loads the configuration that is named, or else the usual one if it is there (in `load`). -/
def loadConfig [Monad m] (host : Host m) (path : Option String) :
    ExceptT CommandError m Config := do
  let named ← match path with
    | some path => pure (some path)
    | none => if ← host.present defaultConfigPath then pure (some defaultConfigPath) else pure none
  match named with
  | some path => ExceptT.mk (return (← Config.load host path).mapError .config)
  | none => return {}

/-- Loads the manifest (in `load`). -/
def loadManifest [Monad m] (host : Host m) (settings : Settings) :
    ExceptT CommandError m Manifest := do
  unless ← host.present settings.manifest do
    throw (.noManifest settings.manifest)
  if settings.verbose then
    host.printError ("Loading manifest from: " ++ settings.manifest ++ "\n")
  ExceptT.mk (return (← Manifest.load host settings.manifest).mapError .manifest)

/-- The workspace of a configuration and a manifest (in `load`); one of them has to name the
project. -/
def of (config : Config) (manifest : Manifest) (incremental : Bool) :
    Except CommandError Workspace :=
  match config.projectNameOr manifest.projectName with
  | none => .error .noProject
  | some project => .ok {
      config, manifest, project
      adapterType := (config.adapterTypeOr manifest.adapterType).getD defaultAdapterType
      strategy := if incremental then .incremental else .bulk }

/-- Loads all that a command works on (`load`). -/
def load [Monad m] (host : Host m) (settings : Settings) : ExceptT CommandError m Workspace := do
  let config ← loadConfig host settings.config
  let manifest ← loadManifest host settings
  let workspace ← of config manifest settings.incremental
  if settings.verbose then
    host.printError
      ("Using project " ++ workspace.project ++ " on " ++ workspace.adapterType ++ "\n")
  return workspace

/-- The dependency graph (`graph`). -/
def graph (w : Workspace) : Except CommandError Graph :=
  (w.manifest.link w.strategy).mapError .link

/-- The identity of a node that is given by identity or by the name that references use
(`find_node_id`). -/
def nodeId (w : Workspace) (g : Graph) (name : String) : Except CommandError NodeId :=
  if g.contains name then .ok name
  else
    match w.manifest.resolveRef ⟨w.project, w.project⟩ name none none with
    | .found id => .ok id
    | .ambiguous ids => .error (.severalNodes name ids)
    | .notFound => .error (.noNode name w.project)

end Workspace

end Lineage
