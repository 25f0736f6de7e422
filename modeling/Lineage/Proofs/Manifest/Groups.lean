import Lineage.Manifest.Maps
import Lineage.Proofs.Manifest.Collection
import Lineage.Proofs.Manifest.Focus

/-!
# Members of groups

The map of groups lists an identity under a group once for every collection that lists it there, in ascending order
(`count_groupMap`). Among nodes the type of a record decides whether it is listed; of metrics, semantic models and
saved queries every record is, whatever its type; exposures and unit tests are passed over. So the map lists the
members of each group, each once, exactly if nothing is listed or passed over against its type, and nothing is
listed twice (`groupMap_lists_members_iff`).
-/

namespace Lineage

/-- The group that the node is listed in. -/
def Node.listedIn (n : Node) : Option String := if n.resourceType.participatesInGroups then n.groupName else none

namespace Manifest

variable {m : Manifest} {group : String} {id : NodeId}

/-! ## Members -/

/-- A node or a resource under the identity has a type that can belong to groups, and declares this one. -/
def BelongsTo (m : Manifest) (group : String) (id : NodeId) : Prop :=
  (∃ n, m.nodes[id]? = some n ∧ n.resourceType.participatesInGroups = true ∧ n.groupName = some group) ∨
    ∃ records ∈ m.resourceCollections, ∃ r, records[id]? = some r ∧
      r.resourceType.participatesInGroups = true ∧ r.groupName = some group

instance : Decidable (m.BelongsTo group id) :=
  decidable_of_iff
    ((m.nodes[id]?.any fun n => n.resourceType.participatesInGroups && n.groupName == some group) ||
      m.resourceCollections.any fun records =>
        records[id]?.any fun r => r.resourceType.participatesInGroups && r.groupName == some group)
    (by simp [BelongsTo, Option.any_eq_true])

/-- The collections of resources that are listed, whatever the types of their records are. -/
def groupedCollections (m : Manifest) : List (Collection Resource) := [m.metrics, m.semanticModels, m.savedQueries]

/-- How many collections list the identity under the group. -/
def timesListed (m : Manifest) (group : String) (id : NodeId) : Nat :=
  (if m.nodes[id]?.bind Node.listedIn = some group then 1 else 0) +
    m.groupedCollections.countP fun records => records[id]?.bind Resource.groupName = some group

/-! ## What is listed -/

/-- A collection lists an identity under the group that its record names. -/
theorem idsOf_filterMap {α : Type} (records : Collection α) (groupOf : α → Option String) :
    idsOf (records.toList.filterMap fun (id, a) => (groupOf a).map (·, id)) group =
      (records.toList.filter fun (_, a) => groupOf a == some group).map (·.1) := by
  unfold idsOf
  induction records.toList with
  | nil => rfl
  | cons entry entries ih =>
    obtain ⟨id, a⟩ := entry
    cases hgroup : groupOf a with
    | none => simpa [hgroup] using ih
    | some other =>
      by_cases hother : other = group
      · simpa [hgroup, hother] using ih
      · simpa [hgroup, hother] using ih

/-- A collection lists an identity once if it lists it. -/
theorem count_idsOf_filterMap {α : Type} (records : Collection α) (groupOf : α → Option String) :
    (idsOf (records.toList.filterMap fun (id, a) => (groupOf a).map (·, id)) group).count id =
      if records[id]?.bind groupOf = some group then 1 else 0 := by
  rw [idsOf_filterMap]
  have hnodup : ((records.toList.filter fun (_, a) => groupOf a == some group).map (·.1)).Nodup := by
    have hkeys : records.toList.Pairwise fun a b => a.1 ≠ b.1 :=
      Std.ExtTreeMap.ordered_keys_toList.imp fun h => (compare_lt_iff_lt.1 h).ne
    exact (hkeys.filter _).map _ fun _ _ h => h
  rw [hnodup.count]
  refine if_congr ?_ rfl rfl
  simp [Std.ExtTreeMap.mem_toList_iff_getElem?_eq_some, Option.bind_eq_some_iff]

theorem idsOf_append {entries entries' : List (String × NodeId)} :
    idsOf (entries ++ entries') group = idsOf entries group ++ idsOf entries' group := by
  simp [idsOf]

theorem groupMembers_eq :
    m.groupMembers = (m.nodes.toList.filterMap fun (id, n) => n.listedIn.map (·, id)) ++
      m.groupedCollections.flatMap groupedResources := by
  refine congrArg (· ++ _) (List.filterMap_congr fun entry _ => ?_)
  obtain ⟨id, n⟩ := entry
  simp only [Node.listedIn]
  split <;> rfl

theorem count_idsOf_groupedResources (collections : List (Collection Resource)) :
    (idsOf (collections.flatMap groupedResources) group).count id =
      collections.countP fun records => records[id]?.bind Resource.groupName = some group := by
  induction collections with
  | nil => rfl
  | cons records collections ih =>
    rw [List.flatMap_cons, idsOf_append, List.count_append, ih, groupedResources, count_idsOf_filterMap,
      List.countP_cons, Nat.add_comm]
    simp

theorem count_idsOf_groupMembers : (idsOf m.groupMembers group).count id = m.timesListed group id := by
  rw [groupMembers_eq, idsOf_append, List.count_append, count_idsOf_filterMap, count_idsOf_groupedResources,
    timesListed]

theorem getD_map_mergeSort (groups : Collection (List NodeId)) :
    (groups.map fun _ ids => ids.mergeSort (· ≤ ·)).getD group [] = (groups.getD group []).mergeSort (· ≤ ·) := by
  rw [Std.ExtTreeMap.getD_eq_getD_getElem?, Std.ExtTreeMap.getD_eq_getD_getElem?, Std.ExtTreeMap.getElem?_map]
  cases groups[group]? with
  | none => exact List.mergeSort_nil.symm
  | some ids => rfl

theorem getD_groupMap : m.groupMap.getD group [] = (idsOf m.groupMembers group).mergeSort (· ≤ ·) := by
  rw [groupMap, getD_map_mergeSort, getD_foldl_group, Std.ExtTreeMap.getD_empty, List.nil_append]

/-- The map lists an identity once for every collection that lists it. -/
theorem count_groupMap : (m.groupMap.getD group []).count id = m.timesListed group id := by
  rw [getD_groupMap, (List.mergeSort_perm _ _).count_eq, count_idsOf_groupMembers]

theorem mem_groupMap : group ∈ m.groupMap ↔ ∃ id, 0 < m.timesListed group id := by
  rw [groupMap, Std.ExtTreeMap.mem_map, mem_foldl_group]
  simp only [Std.ExtTreeMap.not_mem_empty, false_or, ← count_idsOf_groupMembers, List.count_pos_iff]
  simp [idsOf]

theorem pairwise_groupMap : (m.groupMap.getD group []).Pairwise (· ≤ ·) := by
  rw [getD_groupMap]
  exact List.pairwise_mergeSort' (· ≤ ·) _

theorem timesListed_pos : 0 < m.timesListed group id ↔
    (∃ n, m.nodes[id]? = some n ∧ n.resourceType.participatesInGroups = true ∧ n.groupName = some group) ∨
      ∃ records ∈ m.groupedCollections, ∃ r, records[id]? = some r ∧ r.groupName = some group := by
  rw [timesListed, Nat.add_pos_iff_pos_or_pos, List.countP_pos_iff]
  refine or_congr ?_ (by simp [Option.bind_eq_some_iff])
  have hnode : m.nodes[id]?.bind Node.listedIn = some group ↔
      ∃ n, m.nodes[id]? = some n ∧ n.resourceType.participatesInGroups = true ∧ n.groupName = some group := by
    simp [Option.bind_eq_some_iff, Node.listedIn]
  split
  · exact iff_of_true Nat.one_pos (hnode.1 ‹_›)
  · exact iff_of_false (lt_irrefl 0) (mt hnode.2 ‹_›)

/-! ## Collections that are in order -/

/-- No record is listed or passed over against its type, unless another record under its identity makes up for it,
and no identity is listed twice. -/
structure Grouped (m : Manifest) : Prop where
  /-- What belongs to a group and is passed over is listed from another collection. -/
  passed : ∀ group id r, m.exposures[id]? = some r ∨ m.unitTests[id]? = some r →
    r.resourceType.participatesInGroups = true → r.groupName = some group → 0 < m.timesListed group id
  /-- What is listed and has a type that belongs to no group has its identity from a member. -/
  listed : ∀ group id, ∀ records ∈ m.groupedCollections, ∀ r, records[id]? = some r →
    r.resourceType.participatesInGroups = false → r.groupName = some group → m.BelongsTo group id
  once : ∀ group id, m.timesListed group id ≤ 1

theorem mem_resourceCollections {records : Collection Resource} : records ∈ m.resourceCollections ↔
    (records = m.exposures ∨ records = m.unitTests) ∨ records ∈ m.groupedCollections := by
  simp only [resourceCollections, groupedCollections, List.mem_cons, List.not_mem_nil, or_false]
  tauto

theorem Grouped.timesListed_pos_iff (h : m.Grouped) : 0 < m.timesListed group id ↔ m.BelongsTo group id := by
  constructor
  · intro hlisted
    obtain hnode | ⟨records, hrecords, r, hr, hgroup⟩ := timesListed_pos.1 hlisted
    · exact .inl hnode
    · cases htype : r.resourceType.participatesInGroups with
      | true => exact .inr ⟨records, mem_resourceCollections.2 (.inr hrecords), r, hr, htype, hgroup⟩
      | false => exact h.listed group id records hrecords r hr htype hgroup
  · rintro (hnode | ⟨records, hrecords, r, hr, htype, hgroup⟩)
    · exact timesListed_pos.2 (.inl hnode)
    · obtain (rfl | rfl) | hrecords := mem_resourceCollections.1 hrecords
      · exact h.passed group id r (.inl hr) htype hgroup
      · exact h.passed group id r (.inr hr) htype hgroup
      · exact timesListed_pos.2 (.inr ⟨records, hrecords, r, hr, hgroup⟩)

theorem grouped_iff : m.Grouped ↔ ∀ group id,
    (0 < m.timesListed group id ↔ m.BelongsTo group id) ∧ m.timesListed group id ≤ 1 := by
  constructor
  · exact fun h group id => ⟨h.timesListed_pos_iff, h.once group id⟩
  · refine fun h => ⟨fun group id r hr htype hgroup => ?_, fun group id records hrecords r hr _ hgroup => ?_,
      fun group id => (h group id).2⟩
    · rw [(h group id).1]
      rcases hr with hr | hr
      · exact .inr ⟨_, mem_resourceCollections.2 (.inl (.inl rfl)), r, hr, htype, hgroup⟩
      · exact .inr ⟨_, mem_resourceCollections.2 (.inl (.inr rfl)), r, hr, htype, hgroup⟩
    · exact (h group id).1.1 (timesListed_pos.2 (.inr ⟨records, hrecords, r, hr, hgroup⟩))

theorem mem_getD_groupMap : id ∈ m.groupMap.getD group [] ↔ 0 < m.timesListed group id := by
  rw [← count_groupMap, List.count_pos_iff]

theorem pairwise_lt_groupMap :
    (m.groupMap.getD group []).Pairwise (· < ·) ↔ ∀ id, m.timesListed group id ≤ 1 := by
  simp only [← count_groupMap, ← List.nodup_iff_count_le_one]
  constructor
  · exact fun h => h.imp ne_of_lt
  · exact fun h => (pairwise_groupMap.and h).imp fun h => lt_of_le_of_ne h.1 h.2

/-- **What the map of groups lists.** Under each group the identities that collections list there, in ascending
order and each as many times as there are such collections; no group without one. These are the identities of the
group's members, in strictly ascending order, exactly if nothing is listed or passed over against its type, and
nothing is listed twice. -/
theorem groupMap_lists_members_iff (m : Manifest) :
    (∀ group id, (m.groupMap.getD group []).count id = m.timesListed group id) ∧
      (∀ group, (m.groupMap.getD group []).Pairwise (· ≤ ·)) ∧
      (∀ group, group ∈ m.groupMap ↔ ∃ id, 0 < m.timesListed group id) ∧
      ((∀ group, (∀ id, id ∈ m.groupMap.getD group [] ↔ m.BelongsTo group id) ∧
          (m.groupMap.getD group []).Pairwise (· < ·) ∧ (group ∈ m.groupMap ↔ ∃ id, m.BelongsTo group id)) ↔
        m.Grouped) := by
  refine ⟨fun _ _ => count_groupMap, fun _ => pairwise_groupMap, fun _ => mem_groupMap, ?_⟩
  simp only [mem_getD_groupMap, pairwise_lt_groupMap, mem_groupMap, grouped_iff]
  constructor
  · exact fun h group id => ⟨(h group).1 id, (h group).2.1 id⟩
  · exact fun h group => ⟨fun id => (h group id).1, fun id => (h group id).2,
      exists_congr fun id => (h group id).1⟩

/-- A metric among the exposures, an exposure among the metrics, and a model that has its identity from a metric
too. -/
def misfiled : Manifest :=
  let resource (id : NodeId) (type : ResourceType) : Resource :=
    { uniqueId := id, name := id, resourceType := type, packageName := "p", group := some "g" }
  { nodes := (∅ : Collection Node).insert "n"
      { uniqueId := "n", name := "n", resourceType := .model, packageName := "p", group := some "g" }
    exposures := (∅ : Collection Resource).insert "e" (resource "e" .metric)
    metrics := ((∅ : Collection Resource).insert "n" (resource "n" .metric)).insert "x" (resource "x" .exposure) }

/-- The manifest can be read. The metric among the exposures is not listed, the exposure among the metrics is, and
the identity that stands in two collections is listed twice. -/
theorem groupMap_lists_misfiled :
    parse? misfiled.toText = some misfiled ∧ misfiled.groupMap.getD "g" [] = ["n", "n", "x"] ∧
      misfiled.BelongsTo "g" "e" ∧ ¬ misfiled.BelongsTo "g" "x" := by
  refine ⟨?_, ?_, by decide +kernel, by decide +kernel⟩
  · have hnumbers : ∀ n ∈ misfiled.toJson.numbers, n.ReadsBack := by decide +kernel
    rw [parse?_toText_of_nesting (by decide +kernel) hnumbers]
    decide +kernel
  · have hids : idsOf misfiled.groupMembers "g" = ["n", "n", "x"] := by decide +kernel
    rw [getD_groupMap, hids]
    exact List.mergeSort_of_pairwise (by decide +kernel)

end Manifest

end Lineage
