import Lineage.Proofs.Manifest.Link

/-!
# Dangling dependencies

A declared dependency that is no member is refused by `linkBulk` and passed over by `linkKnown`. Passing
over it comes to the same as never declaring it: what the manifest declares can be narrowed to what is kept
(`restrict`), which leaves its members as they are (`members_restrict`), and does not alter what is linked as
far as only dangling dependencies are dropped (`linkKnown_restrict`). Narrowed to its members, a manifest can
be linked in one pass, to just the graph that `linkKnown` gives for the whole
(`linkKnown_eq_linkBulk_withoutDangling`).
-/

namespace Lineage

variable {keep : NodeId → Bool}

/-! ## Narrowing -/

/-- Keeps only these of the artifacts that are declared. -/
def DependsOn.restrict (keep : NodeId → Bool) (d : DependsOn) : DependsOn :=
  { d with nodes := d.nodes.filter keep }

def Node.restrict (keep : NodeId → Bool) (n : Node) : Node :=
  { n with dependsOn := n.dependsOn.restrict keep }

def Resource.restrict (keep : NodeId → Bool) (r : Resource) : Resource :=
  { r with dependsOn := r.dependsOn.restrict keep }

def Member.restrict (keep : NodeId → Bool) (member : Member) : Member :=
  { member with dependencies := member.dependencies.filter keep }

namespace Manifest

variable {m : Manifest} {e : GraphError} {u v : NodeId}

/-- The manifest in which every artifact declares only these of its dependencies. -/
def restrict (keep : NodeId → Bool) (m : Manifest) : Manifest :=
  { m with
    nodes := m.nodes.map fun _ n => n.restrict keep
    exposures := m.exposures.map fun _ r => r.restrict keep
    metrics := m.metrics.map fun _ r => r.restrict keep
    semanticModels := m.semanticModels.map fun _ r => r.restrict keep
    unitTests := m.unitTests.map fun _ r => r.restrict keep
    savedQueries := m.savedQueries.map fun _ r => r.restrict keep }

/-- The manifest in which every artifact declares only dependencies that are members. -/
def withoutDangling (m : Manifest) : Manifest := m.restrict m.memberIds.contains

theorem nodeMembers_restrict {c : Collection Node} :
    nodeMembers (c.map fun _ n => n.restrict keep) = (nodeMembers c).map (·.restrict keep) := by
  unfold nodeMembers
  rw [Std.ExtTreeMap.toList_map, List.map_map, List.map_map]
  rfl

theorem resourceMembers_restrict {c : Collection Resource} :
    resourceMembers (c.map fun _ r => r.restrict keep) = (resourceMembers c).map (·.restrict keep) := by
  unfold resourceMembers
  rw [Std.ExtTreeMap.toList_map, List.map_map, List.map_map]
  rfl

theorem sourceMembers_restrict {c : Collection Source} :
    (sourceMembers c).map (·.restrict keep) = sourceMembers c := by
  unfold sourceMembers
  rw [List.map_map]
  rfl

theorem nodes_restrict : (m.restrict keep).nodes = m.nodes.map fun _ n => n.restrict keep := rfl

theorem resourceCollections_restrict :
    (m.restrict keep).resourceCollections =
      m.resourceCollections.map fun c => c.map fun _ r => r.restrict keep := rfl

/-- Narrowing adds no member and drops none, and it keeps their order. -/
theorem members_restrict : (m.restrict keep).members = m.members.map (·.restrict keep) := by
  have hall : nodeMembers (m.restrict keep).nodes ++ sourceMembers (m.restrict keep).sources
      ++ (m.restrict keep).resourceCollections.flatMap resourceMembers =
      (nodeMembers m.nodes ++ sourceMembers m.sources
        ++ m.resourceCollections.flatMap resourceMembers).map (·.restrict keep) := by
    rw [List.map_append, List.map_append, sourceMembers_restrict, List.map_flatMap,
      resourceCollections_restrict, List.flatMap_map, nodes_restrict, nodeMembers_restrict]
    simp only [resourceMembers_restrict]
    rfl
  unfold members
  rw [hall, List.filter_map]
  rfl

theorem memberIds_restrict : (m.restrict keep).memberIds = m.memberIds := by
  unfold memberIds
  rw [members_restrict, List.map_map]
  rfl

theorem declared_restrict : (m.restrict keep).declared = m.declared.filter keep := by
  unfold declared
  rw [members_restrict, List.flatMap_map, List.filter_flatMap]
  rfl

theorem declares_restrict : (m.restrict keep).Declares u v ↔ m.Declares u v ∧ keep u = true := by
  unfold Declares
  rw [members_restrict]
  constructor
  · rintro ⟨_, hrestrict, hid, hu⟩
    obtain ⟨member, hmem, rfl⟩ := List.mem_map.1 hrestrict
    obtain ⟨hu, hkeep⟩ := List.mem_filter.1 hu
    exact ⟨⟨member, hmem, hid, hu⟩, hkeep⟩
  · rintro ⟨⟨member, hmem, hid, hu⟩, hkeep⟩
    exact ⟨member.restrict keep, List.mem_map_of_mem hmem, hid, List.mem_filter.2 ⟨hu, hkeep⟩⟩

/-! ## Linking what is known -/

/-- It makes no difference to what is known if dependencies are dropped that are no members. -/
theorem linkKnown_restrict (h : ∀ id ∈ m.memberIds, keep id = true) :
    (m.restrict keep).linkKnown = m.linkKnown := by
  have hlinks := (links_linkKnown (m := m.restrict keep)).congr
    (fun _ => by rw [memberIds_restrict]) fun _ _ => Iff.rfl
  rw [hlinks.eq_iff links_linkKnown]
  intro u v
  rw [declares_restrict, memberIds_restrict]
  exact ⟨fun hu => ⟨hu.1.1, hu.2⟩, fun hu => ⟨⟨hu.1, h u hu.2⟩, hu.2⟩⟩

theorem stranger?_withoutDangling : m.withoutDangling.stranger? m.withoutDangling.declared = none := by
  unfold withoutDangling
  rw [stranger?_eq_none_iff, declared_restrict, memberIds_restrict]
  intro id hid
  exact List.contains_iff_mem.1 (List.mem_filter.1 hid).2

theorem linkBulk_withoutDangling : m.withoutDangling.linkBulk = .ok m.linkKnown := by
  have hspec := linkBulk_spec m.withoutDangling
  rw [stranger?_withoutDangling] at hspec
  rw [hspec]
  unfold withoutDangling
  rw [linkKnown_restrict fun _ hid => List.contains_iff_mem.2 hid]

/-! ## Linking in one pass -/

theorem exists_linkBulk_iff : (∃ g, m.linkBulk = .ok g) ↔ m.stranger? m.declared = none := by
  refine ⟨fun ⟨_, hg⟩ => (linkBulk_eq_ok hg).1, fun hnone => ?_⟩
  have hspec := linkBulk_spec m
  rw [hnone] at hspec
  exact ⟨_, hspec⟩

theorem linkBulk_eq_error_iff :
    m.linkBulk = .error e ↔ ∃ d, e = .unknownNode d ∧ m.stranger? m.declared = some d := by
  have hspec := linkBulk_spec m
  cases hs : m.stranger? m.declared with
  | some first =>
    rw [hs] at hspec
    rw [hspec]
    simp [eq_comm]
  | none =>
    rw [hs] at hspec
    rw [hspec]
    simp

theorem stranger?_eq_find? {ids : List NodeId} :
    m.stranger? ids = ids.find? fun id => !m.memberIds.contains id := by
  have hcontains : m.parentMap.contains = m.memberIds.contains := by
    funext id
    rw [Bool.eq_iff_iff, contains_parentMap, List.contains_iff_mem]
  unfold stranger?
  rw [hcontains]

/-- **Passing over what dangles.** Linking what is known always succeeds, with the graph that one pass gives
for the manifest without its dangling dependencies. One pass over the manifest as it is succeeds exactly if
nothing dangles, with the same graph. Otherwise it is refused at the first dependency that is no member, going
through the members in order and through the dependencies of each in order. -/
theorem linkKnown_eq_linkBulk_withoutDangling (m : Manifest) :
    m.linkKnown? = .ok m.linkKnown ∧
    m.withoutDangling.linkBulk = .ok m.linkKnown ∧
    ((∃ g, m.linkBulk = .ok g) ↔
      ∀ member ∈ m.members, ∀ d ∈ member.dependencies, d ∈ m.memberIds) ∧
    (∀ g, m.linkBulk = .ok g → g = m.linkKnown) ∧
    ∀ e, m.linkBulk = .error e ↔ ∃ d, e = .unknownNode d ∧
      (m.members.flatMap (·.dependencies)).find? (fun d => !m.memberIds.contains d) = some d := by
  refine ⟨linkKnown?_eq, linkBulk_withoutDangling, ?_, fun g hg => (linkBulk_eq_ok hg).2, fun e => ?_⟩
  · rw [exists_linkBulk_iff, stranger?_eq_none_iff]
    constructor
    · intro h member hmem d hd
      exact h d (List.mem_flatMap.2 ⟨member, hmem, hd⟩)
    · intro h d hd
      obtain ⟨member, hmem, hd⟩ := List.mem_flatMap.1 hd
      exact h member hmem d hd
  · rw [linkBulk_eq_error_iff, stranger?_eq_find?]
    rfl

/-- `c` is held, but is of a type that takes no part in the graph. -/
example :
    let m := ofNodes [("a", .model, ["b", "c", "a", "b"]), ("b", .model, ["x"]), ("c", .macroDef, ["y"])]
    m.linkBulk = .error (.unknownNode "c") ∧
      m.linkKnown.edges = [("a", "a", .dependency), ("b", "a", .dependency)] := by
  decide +kernel

end Manifest

end Lineage
