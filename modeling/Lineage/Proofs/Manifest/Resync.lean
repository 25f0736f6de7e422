import Lineage.Proofs.Manifest.Relink
import Lineage.Proofs.Manifest.TestEdges

/-!
# Partial re-parses with test edges

A relink drops the test edges that touch what it relinks, and adding test edges again brings back those
that are due. Test edges between two nodes that were not relinked stay as they were, though whether
they are due depends on everything between what the test depends on and where the edge ends. So after
a partial re-parse a graph is the one linked afresh with these edges added (`resync_eq`). One that is
not due any more orders a test before a node without reason, and can close a cycle
(`resync_closes_cycle`).
-/

namespace Lineage.Manifest

variable {m m' : Manifest} {g g' h : Graph} {id t n u v : NodeId} {ids : List NodeId} {member : Member}

/-! ## Definitions -/

/-- The entries of an identity in the collections whose entries take part in the graph. -/
def definitionsOf (m : Manifest) (id : NodeId) : Option Node × Option Source × List (Option Resource) :=
  (m.nodes[id]?, m.sources[id]?, m.resourceCollections.map (·[id]?))

theorem nodes_of_definitionsOf (h : m.definitionsOf id = m'.definitionsOf id) :
    m.nodes[id]? = m'.nodes[id]? := congrArg (·.1) h

theorem mem_members_of_definitionsOf (h : m.definitionsOf member.id = m'.definitionsOf member.id) :
    member ∈ m.members ↔ member ∈ m'.members := by
  obtain ⟨hnodes, hrest⟩ := Prod.mk.inj h
  obtain ⟨hsources, hresources⟩ := Prod.mk.inj hrest
  have hresource : ∀ (k : Manifest) (p : Resource → Prop),
      (∃ col ∈ k.resourceCollections, ∃ r, col[member.id]? = some r ∧ p r) ↔
        ∃ r, some r ∈ k.resourceCollections.map (·[member.id]?) ∧ p r := by
    intro k p
    simp only [List.mem_map]
    constructor
    · rintro ⟨col, hcol, r, hr, hp⟩; exact ⟨r, ⟨col, hcol, hr⟩, hp⟩
    · rintro ⟨r, ⟨col, hcol, hr⟩, hp⟩; exact ⟨col, hcol, r, hr, hp⟩
  rw [mem_members, mem_members, hnodes, Std.ExtTreeMap.mem_iff_isSome_getElem?,
    Std.ExtTreeMap.mem_iff_isSome_getElem?, hsources, hresource, hresource, hresources]

theorem mem_memberIds_of_definitionsOf (h : m.definitionsOf id = m'.definitionsOf id) :
    id ∈ m.memberIds ↔ id ∈ m'.memberIds := by
  unfold memberIds
  rw [List.mem_map, List.mem_map]
  constructor
  · rintro ⟨member, hmem, rfl⟩; exact ⟨member, (mem_members_of_definitionsOf h).1 hmem, rfl⟩
  · rintro ⟨member, hmem, rfl⟩; exact ⟨member, (mem_members_of_definitionsOf h).2 hmem, rfl⟩

theorem declares_of_definitionsOf (h : m.definitionsOf v = m'.definitionsOf v) :
    m.Declares u v ↔ m'.Declares u v := by
  constructor
  · rintro ⟨member, hmem, rfl, hu⟩; exact ⟨member, (mem_members_of_definitionsOf h).1 hmem, rfl, hu⟩
  · rintro ⟨member, hmem, rfl, hu⟩; exact ⟨member, (mem_members_of_definitionsOf h).2 hmem, rfl, hu⟩

theorem definitionsOf_of_not_mem (h : id ∉ m.entryIds) :
    m.definitionsOf id = (none, none, m.resourceCollections.map fun _ => none) := by
  unfold entryIds at h
  simp only [List.mem_append, List.mem_flatMap, Std.ExtTreeMap.mem_keys, not_or, not_exists,
    not_and] at h
  obtain ⟨⟨hnode, hsource⟩, hresource⟩ := h
  unfold definitionsOf
  rw [Std.ExtTreeMap.getElem?_eq_none hnode, Std.ExtTreeMap.getElem?_eq_none hsource]
  congr 2
  apply List.map_congr_left
  intro col hcol
  exact Std.ExtTreeMap.getElem?_eq_none (hresource col hcol)

/-- Only entries can differ. -/
theorem forall_definitionsOf_ne_iff :
    (∀ id, m.definitionsOf id ≠ m'.definitionsOf id → id ∈ ids) ↔
      ∀ id ∈ m.entryIds ++ m'.entryIds, m.definitionsOf id ≠ m'.definitionsOf id → id ∈ ids := by
  apply forall_ne_iff
  intro id hid
  rw [List.mem_append, not_or] at hid
  rw [definitionsOf_of_not_mem hid.1, definitionsOf_of_not_mem hid.2]
  rfl

theorem isTest_of_definitionsOf (h : m.definitionsOf id = m'.definitionsOf id) :
    m.isTest id = m'.isTest id := by
  unfold isTest
  rw [nodes_of_definitionsOf h]

/-! ## Linked graphs -/

/-- Where no two members share an identity, a linked graph has the declared dependencies, all of them
between members. -/
theorem links_of_linkBulk (hm : m.memberIds.Nodup) (hg : m.linkBulk = .ok g) :
    m.Closed ∧ Graph.Links g (· ∈ m.memberIds) m.Declares := by
  rw [linkBulk_eq_of_nodup hm] at hg
  obtain ⟨hclosed, hlinks⟩ := linkIncremental_eq_ok hg
  refine ⟨hclosed, hlinks.congr (fun _ => Iff.rfl) fun u v => ?_⟩
  exact ⟨declares_of_mem_parentsOf, (counts_of_nodup hm).2 u v⟩

/-- A test edge is added where there is no edge. -/
theorem kind?_of_gates (hg : Graph.Links g (· ∈ m.memberIds) m.Declares) (hgate : m.Gates g t n) :
    g.kind? t n = none := by
  cases hk : g.kind? t n with
  | none => rfl
  | some kind =>
    have hdep : g.Dependency t n := (hg.edges t n .dependency).2 ⟨rfl, ((hg.edges t n kind).1 hk).2⟩
    have hne : t ≠ n := by
      rintro rfl
      have hnot := hgate.notTest
      rw [hgate.test] at hnot
      cases hnot
    exact absurd (Graph.mem_related_backward.2 ⟨hne, .single hdep⟩) hgate.outside

/-! ## What a re-parse leaves behind -/

/-- The test edges of a manifest between identities that are not relinked. -/
def keptEdges (m : Manifest) (g : Graph) (ids : List NodeId) : List (NodeId × NodeId) :=
  (m.testEdges g).filter fun p => !ids.contains p.1 && !ids.contains p.2

theorem mem_keptEdges : (t, n) ∈ m.keptEdges g ids ↔ m.Gates g t n ∧ t ∉ ids ∧ n ∉ ids := by
  unfold keptEdges
  simp only [List.mem_filter, mem_testEdges, Bool.and_eq_true, Bool.not_eq_true', ← Bool.not_eq_true,
    List.contains_iff_mem]

/-- Links a manifest and adds the test edges. -/
def linkTested (m : Manifest) : Except GraphError Graph := do
  let g ← m.linkBulk
  return (← m.addTestEdges? g).2

/-- Relinks these identities and adds the test edges. -/
def resync (m : Manifest) (ids : List NodeId) (g : Graph) : Except GraphError Graph := do
  let g ← m.relinkAll ids g
  return (← m.addTestEdges? g).2

theorem linkTested_eq (hg : m.linkBulk = .ok g) : m.linkTested = .ok (m.addTestEdges g).2 := by
  simp only [linkTested, hg, addTestEdges?_eq, bind, Except.bind, pure, Except.pure]

theorem resync_eq_of_relinkAll (hh : m.relinkAll ids g = .ok h) :
    m.resync ids g = .ok (m.addTestEdges h).2 := by
  simp only [resync, hh, addTestEdges?_eq, bind, Except.bind, pure, Except.pure]

section
variable (hm : m.memberIds.Nodup) (hm' : m'.memberIds.Nodup) (hg : m.linkBulk = .ok g)
  (hg' : m'.linkBulk = .ok g') (hids : ∀ id, m.definitionsOf id ≠ m'.definitionsOf id → id ∈ ids)
include hm hm' hg hg' hids

/-- An identity that is not relinked is in both linked graphs or in none. -/
theorem contains_eq_of_not_mem (hu : u ∉ ids) : g.contains u = g'.contains u := by
  obtain ⟨-, hlinks⟩ := links_of_linkBulk hm hg
  obtain ⟨-, hlinks'⟩ := links_of_linkBulk hm' hg'
  rw [Bool.eq_iff_iff, hlinks.nodes, hlinks'.nodes]
  exact mem_memberIds_of_definitionsOf (eq_of_not_mem hids hu)

/-- An identity that is not relinked has the same dependencies in both linked graphs. -/
theorem kind?_eq_of_not_mem (hv : v ∉ ids) : g.kind? u v = g'.kind? u v := by
  obtain ⟨-, hlinks⟩ := links_of_linkBulk hm hg
  obtain ⟨-, hlinks'⟩ := links_of_linkBulk hm' hg'
  refine Option.ext fun kind => ?_
  rw [hlinks.edges, hlinks'.edges,
    declares_of_definitionsOf (eq_of_not_mem hids hv)]

theorem contains_of_mem_keptEdges (huv : (u, v) ∈ m.keptEdges g ids) :
    g'.contains u = true ∧ g'.contains v = true := by
  obtain ⟨hgate, hu, hv⟩ := mem_keptEdges.1 huv
  rw [← contains_eq_of_not_mem hm hm' hg hg' hids hu, ← contains_eq_of_not_mem hm hm' hg hg' hids hv]
  exact contains_of_mem_testEdges (mem_testEdges.2 hgate)

theorem spare_keptEdges : m'.Spare g' (m.keptEdges g ids) := by
  intro u v huv
  obtain ⟨hgate, -, hv⟩ := mem_keptEdges.1 huv
  constructor
  · rw [← kind?_eq_of_not_mem hm hm' hg hg' hids hv]
    exact kind?_of_gates (links_of_linkBulk hm hg).2 hgate
  · rw [← isTest_of_definitionsOf (eq_of_not_mem hids hv)]
    exact hgate.notTest

theorem Renewed.contains_tested (hnew : Renewed m' ids (m.addTestEdges g).2 h) :
    h.contains u = g'.contains u := by
  by_cases hu : u ∈ ids
  · rw [Bool.eq_iff_iff, hnew.nodes, (links_of_linkBulk hm' hg').2.nodes, if_pos hu]
  · rw [← contains_eq_of_not_mem hm hm' hg hg' hids hu, Bool.eq_iff_iff, hnew.nodes, if_neg hu,
      contains_addTestEdges]

/-- What touches a relinked identity is as in the linked graph. -/
theorem Renewed.kind?_touched (hnew : Renewed m' ids (m.addTestEdges g).2 h)
    (htouch : u ∈ ids ∨ v ∈ ids) : h.kind? u v = g'.kind? u v := by
  obtain ⟨hclosed, hlinks'⟩ := links_of_linkBulk hm' hg'
  have hnode : ∀ u, h.contains u = g'.contains u := fun _ => hnew.contains_tested hm hm' hg hg' hids
  refine Option.ext fun kind => ?_
  rw [hnew.edges, if_pos htouch, wanted?_eq_some, hlinks'.edges, hnode, hnode, hlinks'.nodes,
    hlinks'.nodes]
  refine and_congr_right fun _ => ⟨fun hp => declares_of_mem_parentsOf hp.2.2, fun hd => ?_⟩
  have hp := (counts_of_nodup hm').2 u v hd
  exact ⟨hclosed u v hp, hd.mem_memberIds, hp⟩

/-- Between identities that are not relinked, the test edges stay. -/
theorem Renewed.kind?_kept (hnew : Renewed m' ids (m.addTestEdges g).2 h)
    (htouch : ¬ (u ∈ ids ∨ v ∈ ids)) :
    h.kind? u v = if (u, v) ∈ m.keptEdges g ids then some .parentTest else g'.kind? u v := by
  rw [hnew.edges, if_neg htouch, kind?_addTestEdges]
  rw [not_or] at htouch
  have hiff : (u, v) ∈ m.keptEdges g ids ↔ (u, v) ∈ m.testEdges g := by
    rw [mem_keptEdges, mem_testEdges]
    exact and_iff_left htouch
  by_cases huv : (u, v) ∈ m.testEdges g
  · rw [if_pos huv, if_pos (hiff.2 huv)]
  · rw [if_neg huv, if_neg fun hmem => huv (hiff.1 hmem),
      kind?_eq_of_not_mem hm hm' hg hg' hids htouch.2]

/-- Relinking leads to the linked graph with the test edges that were not touched. -/
theorem relinkAll_tested :
    m'.relinkAll ids (m.addTestEdges g).2 =
      .ok (g'.insertEdges (fun _ _ => .parentTest) (m.keptEdges g ids)) := by
  obtain ⟨h, hh, hnew⟩ := relinkAll_spec (links_of_linkBulk hm' hg').1 ids (m.addTestEdges g).2
  rw [hh, Except.ok.injEq]
  refine Graph.ext_view (fun u => ?_) fun u v => ?_
  · rw [hnew.contains_tested hm hm' hg hg' hids, Graph.contains_insertEdges]
  rw [Graph.kind?_insertEdges]
  by_cases huv : (u, v) ∈ m.keptEdges g ids
  · obtain ⟨-, hu, hv⟩ := mem_keptEdges.1 huv
    rw [hnew.kind?_kept hm hm' hg hg' hids fun htouch => htouch.elim hu hv, if_pos huv,
      if_pos ⟨huv, contains_of_mem_keptEdges hm hm' hg hg' hids huv⟩]
  · rw [if_neg fun hand => huv hand.1]
    by_cases htouch : u ∈ ids ∨ v ∈ ids
    · exact hnew.kind?_touched hm hm' hg hg' hids htouch
    · rw [hnew.kind?_kept hm hm' hg hg' hids htouch, if_neg huv]

/-- **What a partial re-parse with test edges leads to.** Relinking at least what is defined otherwise
in the new manifest and adding the test edges again does not fail. It leads to the graph linked afresh,
with test edges, to which those test edges of the old manifest are added that touch nothing that was
relinked. So it is the graph linked afresh exactly if all these edges are due in the new manifest. -/
theorem resync_eq :
    m'.resync ids (m.addTestEdges g).2 =
        .ok ((m'.addTestEdges g').2.insertEdges (fun _ _ => .parentTest) (m.keptEdges g ids)) ∧
      (m'.resync ids (m.addTestEdges g).2 = m'.linkTested ↔
        ∀ p ∈ m.keptEdges g ids, p ∈ m'.testEdges g') := by
  have hspare := spare_keptEdges hm hm' hg hg' hids
  have hresync : m'.resync ids (m.addTestEdges g).2 =
      .ok ((m'.addTestEdges g').2.insertEdges (fun _ _ => .parentTest) (m.keptEdges g ids)) := by
    rw [resync_eq_of_relinkAll (relinkAll_tested hm hm' hg hg' hids), hspare.addTestEdges]
  refine ⟨hresync, ?_⟩
  rw [hresync, linkTested_eq hg', Except.ok.injEq]
  constructor
  · rintro heq ⟨u, v⟩ huv
    by_contra hnot
    have hk : (m'.addTestEdges g').2.kind? u v = some .parentTest := by
      rw [← heq, Graph.kind?_insertEdges, contains_addTestEdges, contains_addTestEdges,
        if_pos ⟨huv, contains_of_mem_keptEdges hm hm' hg hg' hids huv⟩]
    rw [kind?_addTestEdges, if_neg hnot, (hspare u v huv).1] at hk
    cases hk
  · intro hdue
    refine Graph.ext_view (fun u => Graph.contains_insertEdges) fun u v => ?_
    rw [Graph.kind?_insertEdges]
    split
    · rename_i huv
      rw [kind?_addTestEdges, if_pos (hdue (u, v) huv.1)]
    · rfl

end

/-- The model `n` depends on `b`, and `b` on `a`, which the test `t` is about. -/
def downstream : Manifest :=
  ofNodes [("a", .model, []), ("b", .model, ["a"]), ("n", .model, ["b"]), ("t", .test, ["a"])]

/-- The same, but `a` depends on `n`, and `b` on nothing. -/
def upstream : Manifest :=
  ofNodes [("a", .model, ["n"]), ("b", .model, []), ("n", .model, ["b"]), ("t", .test, ["a"])]

theorem resync_eq_upstream :
    downstream.memberIds.Nodup ∧ upstream.memberIds.Nodup ∧
      downstream.linkBulk = .ok downstream.linkKnown ∧ upstream.linkBulk = .ok upstream.linkKnown ∧
      (∀ id, downstream.definitionsOf id ≠ upstream.definitionsOf id → id ∈ ["a", "b"]) ∧
      upstream.resync ["a", "b"] (downstream.addTestEdges downstream.linkKnown).2 =
        .ok ((upstream.addTestEdges upstream.linkKnown).2.insertEdges (fun _ _ => .parentTest)
          [("t", "n")]) := by
  have hm : downstream.memberIds.Nodup := by decide +kernel
  have hm' : upstream.memberIds.Nodup := by decide +kernel
  have hg : downstream.linkBulk = .ok downstream.linkKnown := by decide +kernel
  have hg' : upstream.linkBulk = .ok upstream.linkKnown := by decide +kernel
  have hids : ∀ id, downstream.definitionsOf id ≠ upstream.definitionsOf id → id ∈ ["a", "b"] :=
    forall_definitionsOf_ne_iff.2 (by decide +kernel)
  have hkept : downstream.keptEdges downstream.linkKnown ["a", "b"] = [("t", "n")] := by decide +kernel
  have hresync := (resync_eq hm hm' hg hg' hids).1
  rw [hkept] at hresync
  exact ⟨hm, hm', hg, hg', hids, hresync⟩

/-- The test edge from `t` to `n` is not due any more, but stays, since neither was redefined. It closes
a cycle, which the graph linked afresh does not have. -/
theorem resync_closes_cycle :
    downstream.memberIds.Nodup ∧ upstream.memberIds.Nodup ∧
      (∀ id, downstream.definitionsOf id ≠ upstream.definitionsOf id → id ∈ ["a", "b"]) ∧
      ∃ g h g', downstream.linkTested = .ok g ∧ upstream.resync ["a", "b"] g = .ok h ∧
        upstream.linkTested = .ok g' ∧ h ≠ g' ∧
        h.findCycle = some ["a", "t", "n"] ∧ g'.findCycle = none := by
  have hm : downstream.memberIds.Nodup := by decide +kernel
  have hm' : upstream.memberIds.Nodup := by decide +kernel
  have hg : downstream.linkBulk = .ok downstream.linkKnown := by decide +kernel
  have hg' : upstream.linkBulk = .ok upstream.linkKnown := by decide +kernel
  have hids : ∀ id, downstream.definitionsOf id ≠ upstream.definitionsOf id → id ∈ ["a", "b"] :=
    forall_definitionsOf_ne_iff.2 (by decide +kernel)
  have hrelink := relinkAll_tested hm hm' hg hg' hids
  have hkept : downstream.keptEdges downstream.linkKnown ["a", "b"] = [("t", "n")] := by decide +kernel
  rw [hkept] at hrelink
  refine ⟨hm, hm', hids, _, _, _, linkTested_eq hg, resync_eq_of_relinkAll hrelink, linkTested_eq hg',
    ?_, ?_, ?_⟩ <;> decide +kernel

end Lineage.Manifest
