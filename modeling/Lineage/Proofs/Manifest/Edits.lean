import Lineage.Proofs.Manifest.Collection
import Lineage.Proofs.Manifest.Link
import Lineage.Proofs.Resolve.Name

/-!
# Manifests that are built by edits

Every edit leaves a manifest in order: each record stands under its own identity, in the collection of its
type (`Filed.edit`). Lookups answer with identities of records and the graph is built from the keys of
collections, so in such a manifest every artifact that a name can mean is a node of the graph
(`Filed.contains_linkKnown`). A manifest that was read from a text need not be in order.
-/

namespace Lineage

namespace Manifest

variable {m : Manifest}

/-- Every record stands under its own identity, in the collection of its type. The type that a source, a
macro, a documentation block or a group names is not looked at. -/
structure Filed (m : Manifest) : Prop where
  nodes : Keyed Node.uniqueId (·.resourceType.isNode = true) m.nodes
  sources : Keyed Source.uniqueId (fun _ => True) m.sources
  macros : Keyed MacroDef.uniqueId (fun _ => True) m.macros
  docs : Keyed Doc.uniqueId (fun _ => True) m.docs
  groups : Keyed Group.uniqueId (fun _ => True) m.groups
  exposures : Keyed Resource.uniqueId (·.resourceType = .exposure) m.exposures
  metrics : Keyed Resource.uniqueId (·.resourceType = .metric) m.metrics
  semanticModels : Keyed Resource.uniqueId (·.resourceType = .semanticModel) m.semanticModels
  savedQueries : Keyed Resource.uniqueId (·.resourceType = .savedQuery) m.savedQueries
  unitTests : Keyed Resource.uniqueId (·.resourceType = .unitTest) m.unitTests

theorem filed_of_metadata (metadata : Metadata) : Filed { metadata } := by
  constructor <;> exact Keyed.empty

/-! ## Edits -/

/-- One change of a manifest. -/
inductive Edit where
  | addNode (n : Node)
  | addSource (s : Source)
  | addMacro (d : MacroDef)
  | addDoc (d : Doc)
  | addGroup (g : Group)
  | addResource (r : Resource)
  | remove (id : NodeId)

/-- What an edit answers with. -/
inductive Edit.Answer where
  | added
  | refused (e : Misplaced)
  /-- The type of what was removed, if anything was. -/
  | removed (type : Option ResourceType)

/-- The answer of an addition that can be refused, and the manifest it leaves behind. -/
def settle (m : Manifest) : Except Misplaced Manifest → Edit.Answer × Manifest
  | .ok m' => (.added, m')
  | .error e => (.refused e, m)

def edit (m : Manifest) : Edit → Edit.Answer × Manifest
  | .addNode n => m.settle (m.addNode n)
  | .addSource s => (.added, m.addSource s)
  | .addMacro d => (.added, m.addMacro d)
  | .addDoc d => (.added, m.addDoc d)
  | .addGroup g => (.added, m.addGroup g)
  | .addResource r => m.settle (m.addResource r)
  | .remove id => (.removed (m.remove id).1, (m.remove id).2)

/-- The manifest after these edits; one that is refused is passed over. -/
def editAll (m : Manifest) (edits : List Edit) : Manifest := edits.foldl (fun m e => (m.edit e).2) m

/-- The types of artifacts that are kept as resources. -/
def resourceTypes : List ResourceType := [.exposure, .metric, .semanticModel, .savedQuery, .unitTest]

/-- Why an edit cannot be made, whatever the manifest holds. -/
def Edit.misplaced? : Edit → Option Misplaced
  | .addNode n => if n.resourceType.isNode then none else some ⟨n.uniqueId, n.resourceType⟩
  | .addResource r => if r.resourceType ∈ resourceTypes then none else some ⟨r.uniqueId, r.resourceType⟩
  | _ => none

/-- The manifest holds what the edit adds. -/
def Edit.Holds (m : Manifest) : Edit → Prop
  | .addNode n => m.nodes[n.uniqueId]? = some n
  | .addSource s => m.sources[s.uniqueId]? = some s
  | .addMacro d => m.macros[d.uniqueId]? = some d
  | .addDoc d => m.docs[d.uniqueId]? = some d
  | .addGroup g => m.groups[g.uniqueId]? = some g
  | .addResource r => ∃ records ∈ m.resourceCollections, records[r.uniqueId]? = some r
  | .remove _ => True

/-- What holds of the manifest, and of the one an addition answers with, holds of the one that is left behind. -/
theorem settle_of {P : Manifest → Prop} {result : Except Misplaced Manifest} (h : P m)
    (hok : ∀ m', result = .ok m' → P m') : P (m.settle result).2 := by
  cases result with
  | ok m' => exact hok m' rfl
  | error e => exact h

theorem Filed.addNode {m' : Manifest} {n : Node} (h : m.Filed) (hm' : m.addNode n = .ok m') : m'.Filed := by
  unfold Manifest.addNode at hm'
  split at hm'
  · rename_i htype
    cases hm'
    exact { h with nodes := h.nodes.insert htype }
  · cases hm'

theorem Filed.addResource {m' : Manifest} {r : Resource} (h : m.Filed) (hm' : m.addResource r = .ok m') :
    m'.Filed := by
  unfold Manifest.addResource at hm'
  split at hm'
  · cases hm'
    exact { h with exposures := h.exposures.insert ‹_› }
  · cases hm'
    exact { h with metrics := h.metrics.insert ‹_› }
  · cases hm'
    exact { h with semanticModels := h.semanticModels.insert ‹_› }
  · cases hm'
    exact { h with savedQueries := h.savedQueries.insert ‹_› }
  · cases hm'
    exact { h with unitTests := h.unitTests.insert ‹_› }
  · cases hm'

theorem Filed.remove (h : m.Filed) (id : NodeId) : (m.remove id).2.Filed := by
  unfold Manifest.remove
  split
  · exact { h with nodes := h.nodes.erase id }
  split
  · exact { h with sources := h.sources.erase id }
  split
  · exact { h with macros := h.macros.erase id }
  split
  · exact { h with docs := h.docs.erase id }
  split
  · exact { h with groups := h.groups.erase id }
  split
  · exact { h with }
  split
  · exact { h with exposures := h.exposures.erase id }
  split
  · exact { h with metrics := h.metrics.erase id }
  split
  · exact { h with semanticModels := h.semanticModels.erase id }
  split
  · exact { h with savedQueries := h.savedQueries.erase id }
  split
  · exact { h with unitTests := h.unitTests.erase id }
  · exact h

/-- One edit leaves the collections in order. -/
theorem Filed.edit (h : m.Filed) (e : Edit) : (m.edit e).2.Filed := by
  cases e with
  | addNode n => exact settle_of h fun _ => h.addNode
  | addSource s => exact { h with sources := h.sources.insert trivial }
  | addMacro d => exact { h with macros := h.macros.insert trivial }
  | addDoc d => exact { h with docs := h.docs.insert trivial }
  | addGroup g => exact { h with groups := h.groups.insert trivial }
  | addResource r => exact settle_of h fun _ => h.addResource
  | remove id => exact h.remove id

theorem Filed.editAll (h : m.Filed) (edits : List Edit) : (m.editAll edits).Filed := by
  induction edits generalizing m with
  | nil => exact h
  | cons e edits ih => exact ih (h.edit e)

/-- An edit is refused exactly where its record has no place, and then changes nothing. -/
structure Edit.Settled (e : Edit) (m : Manifest) : Prop where
  refused_iff (misplaced : Misplaced) : (m.edit e).1 = .refused misplaced ↔ e.misplaced? = some misplaced
  unchanged (misplaced : Misplaced) : (m.edit e).1 = .refused misplaced → (m.edit e).2 = m
  holds : e.misplaced? = none → e.Holds (m.edit e).2

theorem Edit.settled (e : Edit) (m : Manifest) : e.Settled m := by
  cases e with
  | addNode n =>
    by_cases htype : n.resourceType.isNode = true <;>
      constructor <;> simp [edit, Edit.misplaced?, Manifest.addNode, htype, settle, Edit.Holds]
  | addResource r =>
    cases htype : r.resourceType <;>
      constructor <;>
        simp [edit, Edit.misplaced?, Manifest.addResource, resourceTypes, htype, settle, Edit.Holds,
          resourceCollections]
  | remove id => exact ⟨fun _ => iff_of_false nofun nofun, nofun, fun _ => trivial⟩
  | _ => exact ⟨fun _ => iff_of_false nofun nofun, nofun, fun _ => Std.ExtTreeMap.getElem?_insert_self⟩

/-! ## Lookups -/

/-- A lookup of an artifact by its name; all but sources may name a package. -/
inductive Lookup where
  | ref (name : String) (package version : Option String)
  | source (sourceName name : String)
  | metric (name : String) (package : Option String)
  | semanticModel (name : String) (package : Option String)
  | savedQuery (name : String) (package : Option String)

def resolve (m : Manifest) (scope : Scope) : Lookup → Resolution
  | .ref name package version => m.resolveRef scope name package version
  | .source sourceName name => m.resolveSource scope sourceName name
  | .metric name package => m.resolveMetric scope name package
  | .semanticModel name package => m.resolveSemanticModel scope name package
  | .savedQuery name package => m.resolveSavedQuery scope name package

variable {scope : Scope} {name : String} {package : Option String} {id : NodeId}

theorem mem_ids_rank {cs : List Candidate} (h : id ∈ (rank scope package cs).ids) : ∃ c ∈ cs, c.id = id := by
  obtain ⟨c, hc, hid⟩ := mem_ids_pick.1 h
  exact ⟨c, mem_of_mem_bestRanked hc, hid⟩

theorem exists_of_mem_resolveRef {version : Option String}
    (h : id ∈ (m.resolveRef scope name package version).ids) : ∃ n ∈ m.nodes.values, n.uniqueId = id := by
  rw [resolveRef_eq] at h
  obtain ⟨c, hc, rfl⟩ := mem_ids_pick.1 h
  rw [← bestRanked_map] at hc
  obtain ⟨n, hn, rfl⟩ := List.mem_map.1 (mem_of_mem_bestRanked hc)
  exact ⟨n, (List.mem_filter.1 (mem_nodes_of_mem_contenders hn)).1, rfl⟩

theorem exists_of_mem_resolveSource {sourceName : String}
    (h : id ∈ (m.resolveSource scope sourceName name).ids) : ∃ s ∈ m.sources.values, s.uniqueId = id := by
  unfold resolveSource at h
  dsimp only at h
  split at h
  · cases h
  · rename_i first rest hsorted
    obtain rfl := List.mem_singleton.1 h
    have hmem : first ∈ first :: rest := List.mem_cons_self
    rw [← hsorted, List.mem_mergeSort] at hmem
    exact ⟨first, (List.mem_filter.1 hmem).1, rfl⟩

theorem exists_of_mem_resolveResource {c : Collection Resource}
    (h : id ∈ (resolveResource c scope name package).ids) : ∃ r ∈ c.values, r.uniqueId = id := by
  obtain ⟨_, hc, rfl⟩ := mem_ids_rank h
  obtain ⟨r, hr, rfl⟩ := List.mem_map.1 hc
  exact ⟨r, (List.mem_filter.1 hr).1, rfl⟩

/-! ## What is found is in the graph -/

theorem ResourceType.hasDependencies_of_isNode {type : ResourceType} (h : type.isNode = true) :
    type.hasDependencies = true := by
  unfold ResourceType.hasDependencies
  rw [h, Bool.true_or]

theorem mem_memberIds_of_member {member : Member} (h : member ∈ m.members) : member.id ∈ m.memberIds :=
  List.mem_map_of_mem h

theorem Filed.mem_memberIds_of_node (h : m.Filed) {n : Node} (hn : n ∈ m.nodes.values) :
    n.uniqueId ∈ m.memberIds := by
  obtain ⟨hget, htype⟩ := h.nodes.getElem?_of_mem_values hn
  have hmember : (⟨n.uniqueId, n.resourceType, n.dependsOn.nodes⟩ : Member) ∈ m.members :=
    mem_members.2 ⟨ResourceType.hasDependencies_of_isNode htype, .inl ⟨n, hget, rfl, rfl⟩⟩
  exact mem_memberIds_of_member hmember

theorem Filed.mem_memberIds_of_source (h : m.Filed) {s : Source} (hs : s ∈ m.sources.values) :
    s.uniqueId ∈ m.memberIds := by
  obtain ⟨hget, -⟩ := h.sources.getElem?_of_mem_values hs
  have hkey : s.uniqueId ∈ m.sources := by
    rw [Std.ExtTreeMap.mem_iff_isSome_getElem?, hget]
    rfl
  have hmember : (⟨s.uniqueId, .source, []⟩ : Member) ∈ m.members :=
    mem_members.2 ⟨rfl, .inr (.inl ⟨hkey, rfl, rfl⟩)⟩
  exact mem_memberIds_of_member hmember

/-- A resource of a type with dependencies, in a collection that is in order, is a member. -/
theorem mem_memberIds_of_resource {c : Collection Resource} {type : ResourceType}
    (hc : Keyed Resource.uniqueId (·.resourceType = type) c) (hin : c ∈ m.resourceCollections)
    (htype : type.hasDependencies = true) {r : Resource} (hr : r ∈ c.values) : r.uniqueId ∈ m.memberIds := by
  obtain ⟨hget, rfl⟩ := hc.getElem?_of_mem_values hr
  have hmember : (⟨r.uniqueId, r.resourceType, r.dependsOn.nodes⟩ : Member) ∈ m.members :=
    mem_members.2 ⟨htype, .inr (.inr ⟨c, hin, r, hget, rfl, rfl⟩)⟩
  exact mem_memberIds_of_member hmember

/-- In a manifest in order, what a name can mean is a node of the graph. -/
theorem Filed.contains_linkKnown (h : m.Filed) {lookup : Lookup} (hid : id ∈ (m.resolve scope lookup).ids) :
    m.linkKnown.contains id = true := by
  rw [links_linkKnown.nodes]
  cases lookup with
  | ref name package version =>
    obtain ⟨n, hn, rfl⟩ := exists_of_mem_resolveRef hid
    exact h.mem_memberIds_of_node hn
  | source sourceName name =>
    obtain ⟨s, hs, rfl⟩ := exists_of_mem_resolveSource hid
    exact h.mem_memberIds_of_source hs
  | metric name package =>
    obtain ⟨r, hr, rfl⟩ := exists_of_mem_resolveResource hid
    exact mem_memberIds_of_resource h.metrics (by simp [resourceCollections]) rfl hr
  | semanticModel name package =>
    obtain ⟨r, hr, rfl⟩ := exists_of_mem_resolveResource hid
    exact mem_memberIds_of_resource h.semanticModels (by simp [resourceCollections]) rfl hr
  | savedQuery name package =>
    obtain ⟨r, hr, rfl⟩ := exists_of_mem_resolveResource hid
    exact mem_memberIds_of_resource h.savedQueries (by simp [resourceCollections]) rfl hr

/-- **What edits build can be planned by name.** However the empty manifest, or that of a new project, is
edited, every record stands under its own identity in the collection of its type. An edit whose record has
no place is refused and changes nothing. The graph of what is known can be built, and has every artifact
that a lookup finds or lists as one of several. -/
theorem filed_editAll {start : Manifest}
    (hstart : start = {} ∨ ∃ project adapter, start = ofProject project adapter) (edits : List Edit) :
    (start.editAll edits).Filed ∧ (∀ e : Edit, e.Settled (start.editAll edits)) ∧
      ∃ g, (start.editAll edits).linkKnown? = .ok g ∧
        ∀ scope lookup, ∀ id ∈ ((start.editAll edits).resolve scope lookup).ids, g.contains id = true := by
  have hfiled : start.Filed := by
    rcases hstart with rfl | ⟨project, adapter, rfl⟩
    · exact filed_of_metadata {}
    · exact filed_of_metadata _
  have hbuilt := hfiled.editAll edits
  exact ⟨hbuilt, fun e => e.settled _, _, linkKnown?_eq, fun _ _ _ hid => hbuilt.contains_linkKnown hid⟩

/-- A source is no node and is refused, an exposure is added and removed again, and the metric of the same
name is found in the graph. -/
theorem filed_editAll_metric :
    let m := (ofProject "p" "duckdb").editAll
      [.addNode (.ofName .source "p" "orders"), .addResource (.ofName .exposure "p" "revenue"),
        .addResource (.ofName .metric "p" "revenue"), .remove "exposure.p.revenue"]
    m.resolve ⟨"p", "p"⟩ (.metric "revenue" none) = .found "metric.p.revenue" ∧
      ∃ g, m.linkKnown? = .ok g ∧ g.contains "metric.p.revenue" = true := by
  intro m
  have hfound : m.resolve ⟨"p", "p"⟩ (.metric "revenue" none) = .found "metric.p.revenue" := by
    decide +kernel
  obtain ⟨-, -, g, hg, hids⟩ := filed_editAll (.inr ⟨"p", "duckdb", rfl⟩) _
  exact ⟨hfound, g, hg, hids ⟨"p", "p"⟩ (.metric "revenue" none) _ (hfound ▸ List.mem_singleton_self _)⟩

end Manifest

end Lineage
