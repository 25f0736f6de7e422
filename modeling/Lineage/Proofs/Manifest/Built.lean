import Lineage.Proofs.Json.Reader
import Lineage.Proofs.Manifest.Edits

/-!
# Manifests that are built from records

Records that are made by name and then given dependencies, groups and versions (`Node.Built`, `Resource.Built`) have
no fields but those (`Node.Plain`, `Resource.Plain`). So a manifest that such records are added to holds nothing
else (`Manifest.Plain.editAll`).
-/

namespace Lineage

/-! ## Records -/

/-- A value as it is kept: its fields are sorted by name, and its whole numbers fit 64 bits. -/
structure Json.Regular (v : Json) : Prop where
  sorted : v.normalize = v
  inRange : ∀ n ∈ v.numbers, n.InRange

/-- The node is made by name, and then given dependencies, groups and versions. -/
inductive Node.Built : Node → Prop
  | ofName (type : ResourceType) (package name : String) : Node.Built (.ofName type package name)
  | withDependsOn {n : Node} (h : n.Built) (ids : List NodeId) : Node.Built (n.withDependsOn ids)
  | withGroup {n : Node} (h : n.Built) (group : String) : Node.Built (n.withGroup group)
  | withVersion {n : Node} (h : n.Built) {version : Json} (hversion : version.Regular) :
    Node.Built (n.withVersion version)

/-- The resource is made by name, and then given dependencies. -/
inductive Resource.Built : Resource → Prop
  | ofName (type : ResourceType) (package name : String) : Resource.Built (.ofName type package name)
  | withDependsOn {r : Resource} (h : r.Built) (ids : List NodeId) : Resource.Built (r.withDependsOn ids)

/-- The node has no fields that are not looked at, and names no latest version. -/
structure Node.Plain (n : Node) : Prop where
  version : ∀ v, n.version = some v → v.Regular
  latestVersion : n.latestVersion = none
  config : n.config.extra = ∅
  extra : n.extra = ∅

/-- The resource has no fields that are not looked at. -/
structure Resource.Plain (r : Resource) : Prop where
  config : r.config.extra = ∅
  extra : r.extra = ∅

theorem Node.Built.plain {n : Node} (h : n.Built) : n.Plain := by
  induction h with
  | ofName => exact ⟨nofun, rfl, rfl, rfl⟩
  | withDependsOn _ _ ih => exact ⟨ih.version, ih.latestVersion, ih.config, ih.extra⟩
  | withGroup _ _ ih => exact ⟨ih.version, ih.latestVersion, ih.config, ih.extra⟩
  | withVersion _ hversion ih =>
    refine ⟨fun v hv => ?_, ih.latestVersion, ih.config, ih.extra⟩
    obtain rfl := Option.some.inj hv
    exact hversion

theorem Resource.Built.plain {r : Resource} (h : r.Built) : r.Plain := by
  induction h with
  | ofName => exact ⟨rfl, rfl⟩
  | withDependsOn _ _ ih => exact ⟨ih.config, ih.extra⟩

namespace Manifest

/-- The record that is added, if any, is built. -/
def Edit.Built : Edit → Prop
  | .addNode n => n.Built
  | .addSource s => ∃ package sourceName name, s = .ofName package sourceName name
  | .addMacro d => ∃ package name, d = .ofName package name
  | .addDoc d => ∃ package name, d = .ofName package name
  | .addGroup g => ∃ package name, g = .ofName package name
  | .addResource r => r.Built
  | .remove _ => True

/-! ## Manifests -/

/-- The manifest holds plain records under their own identities, and nothing else. -/
structure Plain (m : Manifest) : Prop where
  metadata : m.metadata.extra = ∅
  nodes : Keyed Node.uniqueId Node.Plain m.nodes
  sources : Keyed Source.uniqueId (·.extra = ∅) m.sources
  macros : Keyed MacroDef.uniqueId (·.extra = ∅) m.macros
  docs : Keyed Doc.uniqueId (·.extra = ∅) m.docs
  groups : Keyed Group.uniqueId (·.extra = ∅) m.groups
  exposures : Keyed Resource.uniqueId Resource.Plain m.exposures
  metrics : Keyed Resource.uniqueId Resource.Plain m.metrics
  semanticModels : Keyed Resource.uniqueId Resource.Plain m.semanticModels
  savedQueries : Keyed Resource.uniqueId Resource.Plain m.savedQueries
  unitTests : Keyed Resource.uniqueId Resource.Plain m.unitTests
  selectors : m.selectors = ∅
  disabled : m.disabled = ∅
  extra : m.extra = ∅

namespace Plain

variable {m m' : Manifest}

theorem of_metadata {metadata : Metadata} (h : metadata.extra = ∅) : Plain { metadata } where
  metadata := h
  nodes := .empty
  sources := .empty
  macros := .empty
  docs := .empty
  groups := .empty
  exposures := .empty
  metrics := .empty
  semanticModels := .empty
  savedQueries := .empty
  unitTests := .empty
  selectors := rfl
  disabled := rfl
  extra := rfl

theorem addNode {n : Node} (h : m.Plain) (hn : n.Plain) (hm' : m.addNode n = .ok m') : m'.Plain := by
  unfold Manifest.addNode at hm'
  split at hm'
  · cases hm'
    exact { h with nodes := h.nodes.insert hn }
  · cases hm'

theorem addResource {r : Resource} (h : m.Plain) (hr : r.Plain) (hm' : m.addResource r = .ok m') : m'.Plain := by
  unfold Manifest.addResource at hm'
  split at hm'
  · cases hm'
    exact { h with exposures := h.exposures.insert hr }
  · cases hm'
    exact { h with metrics := h.metrics.insert hr }
  · cases hm'
    exact { h with semanticModels := h.semanticModels.insert hr }
  · cases hm'
    exact { h with savedQueries := h.savedQueries.insert hr }
  · cases hm'
    exact { h with unitTests := h.unitTests.insert hr }
  · cases hm'

theorem remove (h : m.Plain) (id : NodeId) : (m.remove id).2.Plain := by
  unfold Manifest.remove
  split
  · exact { h with nodes := h.nodes.erase id }
  split
  · exact { h with sources := h.sources.erase id }
  split
  · exact { h with macros := h.macros.erase id }
  split
  · exact { h with docs := h.docs.erase id }
  split
  · exact { h with groups := h.groups.erase id }
  split
  · exact { h with selectors := by rw [h.selectors, Std.ExtTreeMap.erase_empty] }
  split
  · exact { h with exposures := h.exposures.erase id }
  split
  · exact { h with metrics := h.metrics.erase id }
  split
  · exact { h with semanticModels := h.semanticModels.erase id }
  split
  · exact { h with savedQueries := h.savedQueries.erase id }
  split
  · exact { h with unitTests := h.unitTests.erase id }
  · exact h

theorem edit (h : m.Plain) {e : Edit} (he : e.Built) : (m.edit e).2.Plain := by
  cases e with
  | addNode n => exact settle_of h fun _ => h.addNode (Node.Built.plain he)
  | addSource s =>
    obtain ⟨_, _, _, rfl⟩ := he
    exact { h with sources := h.sources.insert rfl }
  | addMacro d =>
    obtain ⟨_, _, rfl⟩ := he
    exact { h with macros := h.macros.insert rfl }
  | addDoc d =>
    obtain ⟨_, _, rfl⟩ := he
    exact { h with docs := h.docs.insert rfl }
  | addGroup g =>
    obtain ⟨_, _, rfl⟩ := he
    exact { h with groups := h.groups.insert rfl }
  | addResource r => exact settle_of h fun _ => h.addResource (Resource.Built.plain he)
  | remove id => exact h.remove id

theorem editAll (h : m.Plain) {edits : List Edit} (hedits : ∀ e ∈ edits, e.Built) : (m.editAll edits).Plain := by
  induction edits generalizing m with
  | nil => exact h
  | cons e edits ih =>
    obtain ⟨he, hedits⟩ := List.forall_mem_cons.1 hedits
    exact ih (h.edit he) hedits

end Plain

end Manifest

end Lineage
