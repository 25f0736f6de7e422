import Lineage.Proofs.Graph.Batches
import Lineage.Proofs.Graph.Selection
import Lineage.Proofs.Manifest.Link

/-!
# Test edges

A test edge leads from a test to a node whose ancestors include all that the test depends on
(`mem_testEdges`). Adding test edges never fails, and gives them their kind without touching any other
edge (`addTestEdges?_eq`, `kind?_addTestEdges`). Searches do not follow test edges, and no test edge ends
in a test, so neither what is found nor which test edges there have to be changes (`addTestEdges_frame`).

Test edges close no cycle. No test edge ends in a test, so a cycle enters a test over one of its
dependencies, and whatever the test depends on leads to the end of the test edge over dependencies
alone: each detour over a test can be cut short, and what is left is a cycle of dependencies
(`exists_cycle_of_detours`).
-/

namespace Lineage

/-! ## Detours -/

section
variable {α : Type} {r s : α → α → Prop} {u v : α}

/-- A path that is mixed from `r` and `s` is a path of `r`, apart perhaps from its first step, if `r`
leads past each step of `s` that comes behind a step of `r`, and no two steps of `s` come in a row. -/
theorem transGen_of_detours (hrs : ∀ d t n, r d t → s t n → Relation.TransGen r d n)
    (hss : ∀ d t n, s d t → ¬ s t n) (h : Relation.TransGen (fun a b => r a b ∨ s a b) u v) :
    Relation.TransGen r u v ∨ ∃ n, s u n ∧ Relation.ReflTransGen r n v := by
  induction h with
  | single hab =>
    rcases hab with hr | hs
    · exact .inl (.single hr)
    · exact .inr ⟨_, hs, .refl⟩
  | @tail b c _ hbc ih =>
    rcases hbc with hr | hs
    · rcases ih with hub | ⟨n, hn, hnb⟩
      · exact .inl (hub.tail hr)
      · exact .inr ⟨n, hn, hnb.tail hr⟩
    · -- the step before this one is a step of `r`, which leads past `b`
      rcases ih with hub | ⟨n, hn, hnb⟩
      · obtain ⟨d, hud, hdb⟩ := Relation.TransGen.tail'_iff.1 hub
        exact .inl (Relation.TransGen.trans_right hud (hrs d b c hdb hs))
      · rcases Relation.ReflTransGen.cases_tail hnb with rfl | ⟨d, hnd, hdb⟩
        · exact absurd hs (hss _ _ _ hn)
        · exact .inr ⟨n, hn, hnd.trans (hrs d b c hdb hs).to_reflTransGen⟩

theorem exists_cycle_of_detours (hrs : ∀ d t n, r d t → s t n → Relation.TransGen r d n)
    (hss : ∀ d t n, s d t → ¬ s t n) (h : Relation.TransGen (fun a b => r a b ∨ s a b) v v) :
    ∃ w, Relation.TransGen r w w := by
  rcases transGen_of_detours hrs hss h with hv | ⟨n, hn, hnv⟩
  · exact ⟨v, hv⟩
  · rcases Relation.ReflTransGen.cases_tail hnv with rfl | ⟨d, hnd, hdv⟩
    · exact absurd hn (hss _ _ _ hn)
    · exact ⟨d, Relation.TransGen.trans_left (hrs d v n hdv hn) hnd⟩

end

namespace Manifest

variable {m : Manifest} {g h : Graph} {t n u v : NodeId}

/-! ## Which edges -/

/-- `t` is a test that has to run before the node `n`. -/
structure Gates (m : Manifest) (g : Graph) (t n : NodeId) : Prop where
  node : n ∈ m.nodes
  known : g.contains n = true
  notTest : m.isTest n = false
  test : m.isTest t = true
  attached : ∃ p ∈ g.related .backward n none, g.Edge p t
  outside : t ∉ g.related .backward n none
  covered : m.covered (g.related .backward n none) t = true

theorem mem_gates {ancestors : NodeSet} {successors : List NodeId} :
    t ∈ m.gates ancestors successors ↔
      t ∈ successors ∧ m.isTest t = true ∧ t ∉ ancestors ∧ m.covered ancestors t = true := by
  unfold gates
  simp only [List.mem_filter, Std.ExtTreeSet.mem_toList, Graph.mem_ofList, Bool.and_eq_true,
    Bool.not_eq_true', ← Bool.not_eq_true, Std.ExtTreeSet.contains_iff_mem, and_assoc]

/-- Of the successors only the tests matter, and not their order. -/
theorem gates_congr {ancestors : NodeSet} {successors successors' : List NodeId}
    (h : ∀ t, m.isTest t = true → (t ∈ successors ↔ t ∈ successors')) :
    m.gates ancestors successors = m.gates ancestors successors' := by
  have hattached : (Std.ExtTreeSet.ofList (successors.filter fun t => m.isTest t && !ancestors.contains t) :
        NodeSet) =
      Std.ExtTreeSet.ofList (successors'.filter fun t => m.isTest t && !ancestors.contains t) := by
    refine Std.ExtTreeSet.ext_mem fun t => ?_
    simp only [Graph.mem_ofList, List.mem_filter, Bool.and_eq_true]
    exact and_congr_left fun ht => h t ht.1
  simp only [gates, hattached]

theorem mem_gated : n ∈ m.gated g ↔ n ∈ m.nodes ∧ m.isTest n = false ∧ g.contains n = true := by
  unfold gated
  simp only [List.mem_filter, Std.ExtTreeMap.mem_keys, Bool.and_eq_true, Bool.not_eq_true']

theorem mem_testEdges : (t, n) ∈ m.testEdges g ↔ m.Gates g t n := by
  unfold testEdges testsBefore
  simp only [List.mem_flatMap, List.mem_map, Prod.mk.injEq, mem_gated, mem_gates,
    Std.ExtTreeSet.mem_toList, Graph.mem_successors]
  constructor
  · rintro ⟨id, ⟨hnode, htest, hknown⟩, _, ⟨hp, ht, hout, hcov⟩, rfl, rfl⟩
    exact ⟨hnode, hknown, htest, ht, hp, hout, hcov⟩
  · rintro ⟨hnode, hknown, htest, ht, hp, hout, hcov⟩
    exact ⟨n, ⟨hnode, htest, hknown⟩, t, ⟨hp, ht, hout, hcov⟩, rfl, rfl⟩

/-- Both ends of a test edge are nodes. -/
theorem contains_of_mem_testEdges (h : (t, n) ∈ m.testEdges g) :
    g.contains t = true ∧ g.contains n = true := by
  obtain ⟨p, _, he⟩ := (mem_testEdges.1 h).attached
  exact ⟨he.target, (mem_testEdges.1 h).known⟩

/-! ## Adding them -/

theorem addTestEdges_eq :
    m.addTestEdges g =
      ((m.testEdges g).length, g.insertEdges (fun _ _ => .parentTest) (m.testEdges g)) := rfl

theorem contains_addTestEdges : (m.addTestEdges g).2.contains u = g.contains u := by
  rw [addTestEdges_eq, Graph.contains_insertEdges]

theorem kind?_addTestEdges :
    (m.addTestEdges g).2.kind? u v = if (u, v) ∈ m.testEdges g then some .parentTest else g.kind? u v := by
  rw [addTestEdges_eq, Graph.kind?_insertEdges]
  by_cases huv : (u, v) ∈ m.testEdges g
  · simp [huv, contains_of_mem_testEdges huv]
  · simp [huv]

theorem mapM_eq_ok {α β ε : Type} {f : α → Except ε β} {f' : α → β} {l : List α}
    (hf : ∀ a ∈ l, f a = .ok (f' a)) : l.mapM f = .ok (l.map f') := by
  induction l with
  | nil => rfl
  | cons a rest ih =>
    rw [List.mapM_cons, hf a List.mem_cons_self, ih fun b hb => hf b (List.mem_cons_of_mem _ hb)]
    rfl

theorem testsBefore?_eq (hn : g.contains n = true) : m.testsBefore? g n = .ok (m.testsBefore g n) := by
  have hancestors : g.ancestors n none = .ok (g.related .backward n none) :=
    Graph.ancestors_eq_ok.2 ⟨hn, rfl⟩
  have hsuccessors : (g.related .backward n none).toList.mapM g.successors? =
      .ok ((g.related .backward n none).toList.map g.successors) := by
    apply mapM_eq_ok
    intro p hp
    obtain ⟨hne, hpath⟩ := Graph.mem_related_backward.1 (Std.ExtTreeSet.mem_toList.1 hp)
    have hknown : g.contains p = true := by
      rcases Relation.ReflTransGen.cases_head hpath with rfl | ⟨q, hpq, _⟩
      · exact absurd rfl hne
      · exact hpq.edge.source
    simp [Graph.successors?, Graph.known, hknown, Except.map]
  simp [testsBefore?, testsBefore, hancestors, hsuccessors, bind, Except.bind, pure, Except.pure,
    List.flatMap_def]

theorem testEdges?_eq : m.testEdges? g = .ok (m.testEdges g) := by
  have hnode : ∀ n ∈ m.gated g, (do return (← m.testsBefore? g n).map (·, n) : Except GraphError _) =
      .ok ((m.testsBefore g n).map (·, n)) := by
    intro n hn
    rw [testsBefore?_eq (mem_gated.1 hn).2.2]
    rfl
  unfold testEdges?
  rw [mapM_eq_ok hnode]
  rfl

/-- Adding test edges never fails. -/
theorem addTestEdges?_eq : m.addTestEdges? g = .ok (m.addTestEdges g) := by
  have hadd : (m.testEdges g).foldlM
      (fun (g : Graph) (p : NodeId × NodeId) => g.addEdge p.1 p.2 .parentTest) g =
        .ok (m.addTestEdges g).2 := by
    have hknown : (m.testEdges g).find? (fun p => !g.contains p.1) = none := by
      rw [List.find?_eq_none]
      intro p hp
      simp [(contains_of_mem_testEdges hp).1]
    rw [foldlM_addEdge fun p hp => (contains_of_mem_testEdges hp).2, hknown, addTestEdges_eq]
  unfold addTestEdges?
  rw [testEdges?_eq]
  simp only [bind, Except.bind, hadd]
  rfl

/-! ## What test edges depend on -/

/-- The graphs have the same nodes, the same dependencies, and edges from the same nodes to each test. -/
structure AlikeForTests (m : Manifest) (g h : Graph) : Prop where
  contains : ∀ u, h.contains u = g.contains u
  dependency : h.Dependency = g.Dependency
  attached : ∀ u t, m.isTest t = true → (h.Edge u t ↔ g.Edge u t)

/-- The same test edges are found, in the same order. -/
theorem AlikeForTests.testEdges (hgh : m.AlikeForTests g h) : m.testEdges h = m.testEdges g := by
  have hgated : m.gated h = m.gated g := by
    unfold gated
    simp only [hgh.contains]
  have hbefore : m.testsBefore h = m.testsBefore g := by
    funext n
    unfold testsBefore
    rw [Graph.related_congr hgh.dependency]
    refine gates_congr fun t ht => ?_
    simp only [List.mem_flatMap, Graph.mem_successors]
    exact exists_congr fun p => and_congr_right fun _ => hgh.attached p t ht
  unfold Manifest.testEdges
  rw [hgated, hbefore]

/-! ## Further test edges -/

/-- These pairs can be made test edges of a graph: none of them is an edge, and none ends in a test. -/
def Spare (m : Manifest) (g : Graph) (extra : List (NodeId × NodeId)) : Prop :=
  ∀ u v, (u, v) ∈ extra → g.kind? u v = none ∧ m.isTest v = false

variable {extra : List (NodeId × NodeId)}

/-- Further test edges do not change which test edges there have to be. -/
theorem Spare.alikeForTests (h : m.Spare g extra) :
    m.AlikeForTests g (g.insertEdges (fun _ _ => .parentTest) extra) := by
  refine ⟨fun u => Graph.contains_insertEdges, ?_, fun u t ht => ?_⟩
  · funext u v
    unfold Graph.Dependency
    rw [Graph.kind?_insertEdges]
    split
    · rename_i huv
      simp [(h u v huv.1).1]
    · rfl
  · have hno : (u, t) ∉ extra := fun hmem => Bool.false_ne_true ((h u t hmem).2.symm.trans ht)
    unfold Graph.Edge
    simp only [Graph.kind?_insertEdges, hno, false_and, if_false]

/-- Further test edges stay. -/
theorem Spare.addTestEdges (h : m.Spare g extra) :
    (m.addTestEdges (g.insertEdges (fun _ _ => .parentTest) extra)).2 =
      (m.addTestEdges g).2.insertEdges (fun _ _ => .parentTest) extra := by
  refine Graph.ext_view (fun u => ?_) fun u v => ?_
  · rw [contains_addTestEdges, Graph.contains_insertEdges, Graph.contains_insertEdges,
      contains_addTestEdges]
  · rw [kind?_addTestEdges, Graph.kind?_insertEdges, Graph.kind?_insertEdges, kind?_addTestEdges,
      contains_addTestEdges, contains_addTestEdges]
    rw [h.alikeForTests.testEdges]
    by_cases huv : (u, v) ∈ m.testEdges g
    · simp [huv]
    · simp [huv]

/-! ## What test edges leave alone -/

theorem nodup_gates {ancestors : NodeSet} {successors : List NodeId} :
    (m.gates ancestors successors).Nodup :=
  (Graph.nodup_of_distinct Std.ExtTreeSet.distinct_toList).filter _

/-- No test edge is listed twice. -/
theorem nodup_testEdges : (m.testEdges g).Nodup := by
  unfold testEdges
  have hgated : (m.gated g).Nodup := (Graph.nodup_of_distinct Std.ExtTreeMap.distinct_keys).filter _
  refine List.nodup_flatMap.2 ⟨fun n _ => ?_, hgated.imp fun {n n'} hne => ?_⟩
  · exact nodup_gates.map fun t t' heq => (Prod.mk.inj heq).1
  · rintro ⟨t, v⟩ hn hn'
    obtain ⟨_, _, heq⟩ := List.mem_map.1 hn
    obtain ⟨_, _, heq'⟩ := List.mem_map.1 hn'
    exact hne ((Prod.mk.inj heq).2.trans (Prod.mk.inj heq').2.symm)

/-- No test edge ends in a test. -/
theorem Gates.not_isTest (hgate : m.Gates g t n) : ¬ m.isTest n = true := by
  rw [hgate.notTest]
  exact Bool.false_ne_true

/-- A test that is no ancestor of a node has no dependency to it. -/
theorem Gates.not_dependency (hgate : m.Gates g t n) : ¬ g.Dependency t n := by
  intro hdep
  refine hgate.outside (Graph.mem_related_backward.2 ⟨?_, .single hdep⟩)
  -- `t` is a test and `n` is none, so the dependency makes `t` an ancestor
  rintro rfl
  exact hgate.not_isTest hgate.test

theorem dependency_addTestEdges : (m.addTestEdges g).2.Dependency = g.Dependency := by
  funext u v
  unfold Graph.Dependency
  rw [kind?_addTestEdges]
  split
  · rename_i huv
    have hno : ¬ g.kind? u v = some .dependency := (mem_testEdges.1 huv).not_dependency
    simp [hno]
  · rfl

theorem alikeForTests_addTestEdges : m.AlikeForTests g (m.addTestEdges g).2 := by
  refine ⟨fun u => contains_addTestEdges, dependency_addTestEdges, fun u t ht => ?_⟩
  have hno : (u, t) ∉ m.testEdges g := fun hmem => (mem_testEdges.1 hmem).not_isTest ht
  unfold Graph.Edge
  rw [kind?_addTestEdges, if_neg hno]

/-- Adding the test edges again adds the same ones, which are there. -/
theorem addTestEdges_addTestEdges : m.addTestEdges (m.addTestEdges g).2 = m.addTestEdges g := by
  have hsame : m.testEdges (m.addTestEdges g).2 = m.testEdges g := alikeForTests_addTestEdges.testEdges
  have hgraph : (m.addTestEdges (m.addTestEdges g).2).2 = (m.addTestEdges g).2 := by
    refine Graph.ext_view (fun u => contains_addTestEdges) fun u v => ?_
    rw [kind?_addTestEdges, hsame, kind?_addTestEdges]
    split
    · rfl
    · rfl
  have hcount : (m.addTestEdges (m.addTestEdges g).2).1 = (m.testEdges (m.addTestEdges g).2).length := rfl
  exact Prod.ext (by rw [hcount, hsame]; rfl) hgraph

theorem isTest_eq_true : m.isTest u = true ↔ ∃ node, m.nodes[u]? = some node ∧ node.resourceType = .test := by
  simp [isTest, Option.any_eq_true]

/-- What makes a test edge, read off the manifest and the graph. -/
theorem gates_iff : m.Gates g t n ↔
    (∃ node, m.nodes[n]? = some node ∧ node.resourceType ≠ .test) ∧
      ∃ test up, m.nodes[t]? = some test ∧ test.resourceType = .test ∧ g.ancestors n none = .ok up ∧
        (∃ p ∈ up, t ∈ g.successors p) ∧ t ∉ up ∧ test.dependsOn.nodes ≠ [] ∧
        ∀ d ∈ test.dependsOn.nodes, d ∈ up := by
  constructor
  · rintro ⟨hnode, hknown, hnot, ht, ⟨p, hp, he⟩, hout, hcov⟩
    obtain ⟨node, hnode⟩ := Option.isSome_iff_exists.1 (Std.ExtTreeMap.mem_iff_isSome_getElem?.1 hnode)
    obtain ⟨test, htest, htype⟩ := isTest_eq_true.1 ht
    simp only [covered, htest, Option.any_some, Bool.and_eq_true, Bool.not_eq_true',
      List.isEmpty_eq_false_iff, List.all_eq_true, Std.ExtTreeSet.contains_iff_mem] at hcov
    refine ⟨⟨node, hnode, fun htype' => ?_⟩, test, _, htest, htype, Graph.ancestors_eq_ok.2 ⟨hknown, rfl⟩,
      ⟨p, hp, Graph.mem_successors.2 he⟩, hout, hcov⟩
    rw [isTest_eq_true.2 ⟨node, hnode, htype'⟩] at hnot
    cases hnot
  · rintro ⟨⟨node, hnode, htype'⟩, test, up, htest, htype, hup, ⟨p, hp, he⟩, hout, hne, hall⟩
    obtain ⟨hknown, rfl⟩ := Graph.ancestors_eq_ok.1 hup
    refine ⟨?_, hknown, ?_, isTest_eq_true.2 ⟨test, htest, htype⟩, ⟨p, hp, Graph.mem_successors.1 he⟩, hout, ?_⟩
    · rw [Std.ExtTreeMap.mem_iff_isSome_getElem?, hnode]
      rfl
    · rw [← Bool.not_eq_true, isTest_eq_true]
      rintro ⟨node', hnode', htest'⟩
      rw [hnode] at hnode'
      exact htype' (Option.some.inj hnode' ▸ htest')
    · simp only [covered, htest, Option.any_some, Bool.and_eq_true, Bool.not_eq_true',
        List.isEmpty_eq_false_iff, List.all_eq_true, Std.ExtTreeSet.contains_iff_mem]
      exact ⟨hne, hall⟩

/-- **What test edges change.** Adding them does not fail, and it changes nothing but the kinds of as many
edges as it answers. These lead from a test to a node that is no test, where the test is attached to an
ancestor of the node, is none itself, and has dependencies, all of which are ancestors. Dependencies stay
what they are, so all searches give the same answers as before, and adding test edges again gives the
same number and the same graph. -/
theorem addTestEdges_frame (m : Manifest) (g : Graph) :
    ∃ (pairs : List (NodeId × NodeId)) (h : Graph),
      m.addTestEdges? g = .ok (pairs.length, h) ∧ pairs.Nodup ∧
      (∀ t n, (t, n) ∈ pairs ↔
        (∃ node, m.nodes[n]? = some node ∧ node.resourceType ≠ .test) ∧
          ∃ test up, m.nodes[t]? = some test ∧ test.resourceType = .test ∧ g.ancestors n none = .ok up ∧
            (∃ p ∈ up, t ∈ g.successors p) ∧ t ∉ up ∧ test.dependsOn.nodes ≠ [] ∧
            ∀ d ∈ test.dependsOn.nodes, d ∈ up) ∧
      (∀ u, h.contains u = g.contains u) ∧
      (∀ u v, h.kind? u v = if (u, v) ∈ pairs then some .parentTest else g.kind? u v) ∧
      (∀ u v, h.kind? u v = some .dependency ↔ g.kind? u v = some .dependency) ∧
      (∀ id bound, h.ancestors id bound = g.ancestors id bound ∧
        h.descendants id bound = g.descendants id bound) ∧
      (∀ selected bound, h.selectChildren selected bound = g.selectChildren selected bound ∧
        h.selectParents selected bound = g.selectParents selected bound) ∧
      m.addTestEdges? h = .ok (pairs.length, h) := by
  refine ⟨m.testEdges g, (m.addTestEdges g).2, addTestEdges?_eq, nodup_testEdges,
    fun t n => mem_testEdges.trans gates_iff, fun u => contains_addTestEdges, fun u v => kind?_addTestEdges,
    fun u v => ?_, fun id bound => ⟨?_, ?_⟩, fun selected bound => ⟨?_, ?_⟩, ?_⟩
  · exact iff_of_eq (congrFun (congrFun dependency_addTestEdges u) v)
  · simp only [Graph.ancestors, Graph.known, contains_addTestEdges, Graph.related_congr dependency_addTestEdges]
  · simp only [Graph.descendants, Graph.known, contains_addTestEdges,
      Graph.related_congr dependency_addTestEdges]
  · exact Graph.selectRelated_congr dependency_addTestEdges
  · exact Graph.selectRelated_congr dependency_addTestEdges
  · rw [addTestEdges?_eq, addTestEdges_addTestEdges]
    rfl

/-! ## Test edges close no cycle -/

/-- Where no two members share an identity, a node declares what its record says. -/
theorem declares_iff_of_node {node : Node} (hm : m.memberIds.Nodup) (hnode : m.nodes[v]? = some node)
    (htype : node.resourceType.hasDependencies = true) :
    m.Declares u v ↔ u ∈ node.dependsOn.nodes := by
  have hmem : ⟨v, node.resourceType, node.dependsOn.nodes⟩ ∈ m.members :=
    mem_members.2 ⟨htype, .inl ⟨node, hnode, rfl, rfl⟩⟩
  constructor
  · rintro ⟨member, hmember, hid, hu⟩
    rwa [List.inj_on_of_nodup_map hm hmember hmem hid] at hu
  · intro hu
    exact ⟨_, hmem, rfl, hu⟩

/-- A test depends on ancestors only of the nodes that it has to run before. -/
theorem Gates.mem_ancestors (hm : m.memberIds.Nodup) (hgate : m.Gates g t n) (hd : m.Declares u t) :
    u ∈ g.related .backward n none := by
  obtain ⟨node, hnode, htest⟩ := (Option.any_eq_true _ _).1 hgate.test
  rw [beq_iff_eq] at htest
  have hu := (declares_iff_of_node hm hnode (by rw [htest]; rfl)).1 hd
  have hcov := hgate.covered
  unfold Manifest.covered at hcov
  rw [hnode, Option.any_some, Bool.and_eq_true, List.all_eq_true] at hcov
  exact Std.ExtTreeSet.contains_iff_mem.1 (hcov.2 u hu)

/-- Whatever leads to a test over a dependency leads past each test edge from there. -/
theorem Gates.detour (hm : m.memberIds.Nodup) (hgate : m.Gates m.linkKnown t n)
    (hd : m.linkKnown.Dependency u t) : Relation.TransGen m.linkKnown.Dependency u n := by
  have hdecl : m.Declares u t := ((links_linkKnown.edges u t .dependency).1 hd).2.1
  obtain ⟨hne, hpath⟩ := Graph.mem_related_backward.1 (hgate.mem_ancestors hm hdecl)
  rcases Relation.reflTransGen_iff_eq_or_transGen.1 hpath with heq | hpath
  · exact absurd heq.symm hne
  · exact hpath

theorem acyclic_addTestEdges (hm : m.memberIds.Nodup) (hg : m.linkKnown.Acyclic) :
    (m.addTestEdges m.linkKnown).2.Acyclic := by
  have hedge : ∀ u v, (m.addTestEdges m.linkKnown).2.Edge u v →
      m.linkKnown.Dependency u v ∨ m.Gates m.linkKnown u v := by
    rintro u v ⟨kind, hk⟩
    rw [kind?_addTestEdges] at hk
    split at hk
    · rename_i hmem
      exact .inr (mem_testEdges.1 hmem)
    · rw [((links_linkKnown.edges u v kind).1 hk).1] at hk
      exact .inl hk
  intro v hcycle
  obtain ⟨w, hw⟩ := exists_cycle_of_detours (r := m.linkKnown.Dependency) (s := m.Gates m.linkKnown)
    (fun d t n hd hgate => hgate.detour hm hd)
    (fun d t n hdt htn => hdt.not_isTest htn.test)
    (Relation.TransGen.mono hedge _ _ hcycle)
  exact hg w (Relation.TransGen.mono (fun _ _ => Graph.Dependency.edge) _ _ hw)

/-- **Test edges never make a plan unsortable.** Where no two members share an identity and the linked
graph has no cycle, adding the test edges does not fail, the graph still has no cycle, and in its
batches each test comes strictly before every node that it got a test edge to. -/
theorem addTestEdges_sortable (hm : m.memberIds.Nodup) (hg : m.linkBulk = .ok g ∨ m.linkKnown = g)
    (hacyclic : g.Acyclic) :
    ∃ h bs, m.addTestEdges? g = .ok ((m.testEdges g).length, h) ∧
      (∀ t n, h.kind? t n = some .parentTest ↔ m.Gates g t n) ∧
      h.Acyclic ∧ h.batches = .ok bs ∧ Graph.Schedule h bs ∧
      ∀ t n, h.kind? t n = some .parentTest →
        ∃ (i j : Nat) (b b' : List NodeId), i < j ∧ bs[i]? = some b ∧ t ∈ b ∧ bs[j]? = some b' ∧ n ∈ b' := by
  obtain rfl : g = m.linkKnown := by
    rcases hg with hg | hg
    · exact (linkBulk_eq_ok hg).2
    · exact hg.symm
  have hno := acyclic_addTestEdges hm hacyclic
  rcases Graph.batches_cases (m.addTestEdges m.linkKnown).2 with ⟨-, bs, hbs, hsched⟩ | ⟨hcycle, -⟩
  · refine ⟨(m.addTestEdges m.linkKnown).2, bs, addTestEdges?_eq, fun t n => ?_, hno, hbs, hsched,
      fun t n htn => ?_⟩
    · rw [kind?_addTestEdges, ← mem_testEdges]
      split
      · rename_i hmem
        simp [hmem]
      · rename_i hmem
        refine iff_of_false (fun hk => ?_) hmem
        cases ((links_linkKnown.edges t n .parentTest).1 hk).1
    · obtain ⟨b', hb', hn⟩ := List.mem_flatten.1 ((hsched.complete n).2 (Graph.contains_target htn))
      obtain ⟨j, hj⟩ := List.mem_iff_getElem?.1 hb'
      obtain ⟨i, hij, b, hb, ht⟩ := hsched.earlier t n ⟨_, htn⟩ j b' hj hn
      exact ⟨i, j, b, b', hij, hb, ht, hj, hn⟩
  · exact absurd hno hcycle

/-- The model `c` depends on the test `u`, and the test `t` has to run before what `u` tests. -/
theorem addTestEdges_sortable_behind_test :
    let m := ofNodes [("a", .model, []), ("b", .model, ["a"]), ("c", .model, ["b", "u"]),
      ("d", .model, ["c"]), ("t", .test, ["a"]), ("u", .test, ["b"])]
    m.memberIds.Nodup ∧ m.linkBulk = .ok m.linkKnown ∧ m.linkKnown.Acyclic ∧
      ∃ h bs, m.addTestEdges? m.linkKnown = .ok (3, h) ∧ h.batches = .ok bs ∧
        ∃ (i j : Nat) (b b' : List NodeId),
          i < j ∧ bs[i]? = some b ∧ "t" ∈ b ∧ bs[j]? = some b' ∧ "c" ∈ b' := by
  intro m
  have hm : m.memberIds.Nodup := by decide +kernel
  have hg : m.linkBulk = .ok m.linkKnown := by decide +kernel
  have hacyclic : m.linkKnown.Acyclic := Graph.findCycle_eq_none_iff.1 (by decide +kernel)
  have hcount : (m.testEdges m.linkKnown).length = 3 := by decide +kernel
  have htc : ("t", "c") ∈ m.testEdges m.linkKnown := by decide +kernel
  obtain ⟨h, bs, hadd, hgate, -, hbs, -, horder⟩ := addTestEdges_sortable hm (.inl hg) hacyclic
  rw [hcount] at hadd
  exact ⟨hm, hg, hacyclic, h, bs, hadd, hbs, horder "t" "c" ((hgate "t" "c").2 (mem_testEdges.1 htc))⟩

end Manifest

end Lineage
