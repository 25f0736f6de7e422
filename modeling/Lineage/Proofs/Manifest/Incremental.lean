import Lineage.Proofs.Graph.Digraph
import Lineage.Proofs.Manifest.Validate

/-!
# What linking member by member gives

Linking member by member fails exactly where validation finds a dangling dependency, at the first that it
comes to (`linkIncremental_eq_error_iff`). Otherwise the graph is the parent map drawn: its neighbours are
the entries of the parent map and of the child map (`linkIncremental_iff_no_dangling`).
-/

namespace Lineage.Manifest

variable {m : Manifest} {g : Graph} {id p c d : NodeId} {e : GraphError} {config : Config}
  {timestamp : String}

/-! ## Where it fails -/

/-- Everything that counts as a dependency is a key of the parent map. -/
theorem closed_iff_forall_getElem? :
    m.Closed ↔ ∀ (id : NodeId) (parents : List NodeId), m.parentMap[id]? = some parents →
      ∀ p ∈ parents, p ∈ m.parentMap := by
  unfold Closed
  simp only [mem_memberIds_iff]
  constructor
  · intro hm id parents hid p hp
    refine hm p id ?_
    unfold parentsOf
    rwa [getD_of_getElem? hid]
  · intro hm p id hp
    obtain ⟨parents, hid, hmem⟩ := lists_iff_mem_getD.2 hp
    exact hm id parents hid p hmem

theorem no_dangling_iff :
    (∀ finding ∈ (m.validate config timestamp).diagnostics, finding.code ≠ .graphDanglingDependency) ↔
      m.Closed := by
  rw [diagnostics_validate, ← Diagnostic.withCode_eq_nil_iff, withCode_dangling, danglingFindings_eq_nil_iff]

/-- The dependencies that count are gone through member by member, and each member's in order. -/
theorem linkIncremental_eq_error_iff :
    m.linkIncremental = .error e ↔ ∃ d, e = .unknownNode d ∧
      (m.members.flatMap fun member => m.parentMap.getD member.id []).find?
        (fun p => !m.parentMap.contains p) = some d := by
  have hspec := linkIncremental_spec m
  show _ ↔ ∃ d, e = .unknownNode d ∧ m.stranger? (m.counted m.members) = some d
  cases hs : m.stranger? (m.counted m.members) with
  | some first =>
    rw [hs] at hspec
    rw [hspec]
    simp [eq_comm]
  | none =>
    rw [hs] at hspec
    obtain ⟨g, hg, -⟩ := hspec
    rw [hg]
    simp

/-! ## What it gives -/

/-- What a graph holds that was linked member by member. -/
theorem links_of_linkIncremental (hg : m.linkIncremental = .ok g) :
    Graph.Links g (· ∈ m.parentMap) fun u v => u ∈ m.parentsOf v := by
  exact (linkIncremental_eq_ok hg).2.congr (fun _ => mem_memberIds_iff) fun _ _ => Iff.rfl

theorem nodes_of_linkIncremental (hg : m.linkIncremental = .ok g) : g.nodes = m.parentMap.keys := by
  have hkeys : Listed (· < ·) m.parentMap.keys (· ∈ m.parentMap) :=
    ⟨Std.ExtTreeMap.ordered_keys.imp fun h => compare_lt_iff_lt.1 h, fun _ => Std.ExtTreeMap.mem_keys⟩
  refine Listed.unique_of_lt ⟨Graph.pairwise_nodes, fun u => ?_⟩ hkeys
  rw [Graph.mem_nodes, (links_of_linkIncremental hg).nodes]

theorem successors_of_linkIncremental (hg : m.linkIncremental = .ok g) : g.successors p = m.childrenOf p := by
  refine Listed.unique_of_lt ⟨Graph.pairwise_successors, fun c => ?_⟩
    ⟨pairwise_childrenOf, fun c => Iff.rfl⟩
  rw [Graph.mem_successors, mem_childrenOf]
  simp [(links_of_linkIncremental hg).edges]

theorem predecessors_of_linkIncremental (hg : m.linkIncremental = .ok g) :
    g.predecessors c = (m.parentsOf c).mergeSort (· ≤ ·) := by
  refine Listed.unique_of_lt ⟨Graph.pairwise_nodes.filter _, fun p => ?_⟩
    ⟨Graph.pairwise_lt_mergeSort nodup_parentsOf, fun p => List.mem_mergeSort⟩
  show p ∈ g.predecessors c ↔ _
  rw [Graph.mem_predecessors]
  simp [(links_of_linkIncremental hg).edges]

/-- The child map has no other keys than the parent map. -/
theorem Closed.mem_childMap_iff (hm : m.Closed) : id ∈ m.childMap ↔ id ∈ m.parentMap := by
  rw [mem_childMap]
  refine or_iff_left_of_imp ?_
  rintro ⟨child, parents, hchild, hmem⟩
  exact closed_iff_forall_getElem?.1 hm child parents hchild id hmem

/-- A query that refuses what is no node refuses what is no key of a map with the same keys. -/
theorem known_map_eq {col : Collection (List NodeId)} (answer : NodeId → List NodeId)
    (f : List NodeId → List NodeId) (hkeys : g.contains id = true ↔ id ∈ col)
    (hanswer : answer id = f (col.getD id [])) :
    ((g.known id).map fun _ => answer id) =
      match col[id]? with
      | some l => .ok (f l)
      | none => .error (.unknownNode id) := by
  rw [Std.ExtTreeMap.mem_iff_isSome_getElem?] at hkeys
  rw [Std.ExtTreeMap.getD_eq_getD_getElem?] at hanswer
  unfold Graph.known
  cases hid : col[id]? with
  | none =>
    rw [hid] at hkeys
    rw [if_neg fun h => absurd (hkeys.1 h) (by simp)]
    rfl
  | some l =>
    rw [hid] at hkeys hanswer
    rw [if_pos (hkeys.2 rfl)]
    simp only [Except.map, hanswer, Option.getD_some]

/-- **When member by member linking succeeds.** It succeeds exactly if validation reports no dangling
dependency, that is if every identity in an entry of the parent map is one of its keys. The nodes of the
graph are then the keys of the parent map, all edges are dependencies, and the successors of each node are
its entry in the child map, its predecessors the sorted entry in the parent map. Otherwise it is refused at
the first identity that is no key, member by member and in the order of each member's entry. -/
theorem linkIncremental_iff_no_dangling (m : Manifest) (config : Config) (timestamp : String) :
    ((∃ g, m.linkIncremental = .ok g) ↔ ∃ report, m.validate? config timestamp = .ok report ∧
      ∀ finding ∈ report.diagnostics, finding.code ≠ .graphDanglingDependency) ∧
    ((∃ g, m.linkIncremental = .ok g) ↔ ∀ (id : NodeId) (parents : List NodeId),
      m.parentMap[id]? = some parents → ∀ p ∈ parents, p ∈ m.parentMap) ∧
    (∀ g, m.linkIncremental = .ok g →
      g.nodes = m.parentMap.keys ∧
      (∀ u v kind, g.kind? u v = some kind → kind = .dependency) ∧
      (∀ p : NodeId, g.successors? p =
        match m.childMap[p]? with
        | some children => .ok children
        | none => .error (.unknownNode p)) ∧
      ∀ c : NodeId, g.predecessors? c =
        match m.parentMap[c]? with
        | some parents => .ok (parents.mergeSort (· ≤ ·))
        | none => .error (.unknownNode c)) ∧
    ∀ e, m.linkIncremental = .error e → ∃ d, e = .unknownNode d ∧
      (m.members.flatMap fun member => m.parentMap.getD member.id []).find?
        (fun p => !m.parentMap.contains p) = some d := by
  refine ⟨?_, exists_linkIncremental_iff.trans closed_iff_forall_getElem?, fun g hg => ?_,
    fun e => linkIncremental_eq_error_iff.1⟩
  · rw [exists_linkIncremental_iff, validate?_eq]
    simp only [Except.ok.injEq, exists_eq_left', no_dangling_iff]
  · have hlinks := links_of_linkIncremental hg
    have hclosed : m.Closed := (linkIncremental_eq_ok hg).1
    refine ⟨nodes_of_linkIncremental hg, fun u v kind hk => ((hlinks.edges u v kind).1 hk).1, fun p => ?_,
      fun c => ?_⟩
    · exact known_map_eq g.successors (fun children => children)
        ((hlinks.nodes p).trans hclosed.mem_childMap_iff.symm) (successors_of_linkIncremental hg)
    · exact known_map_eq g.predecessors (·.mergeSort (· ≤ ·)) (hlinks.nodes c)
        (predecessors_of_linkIncremental hg)

/-- The first manifest has a dependency of `a` on itself and one on a later member; in the second, the
first of two dependencies that it does not hold is named. -/
theorem linkIncremental_iff_no_dangling_self :
    let m := ofNodes [("a", .model, ["b", "a"]), ("b", .model, [])]
    let m' := ofNodes [("a", .model, ["b"]), ("b", .model, ["a", "y", "x"])]
    m.linkIncremental = .ok m.linkKnown ∧ m.linkKnown.nodes = ["a", "b"] ∧
      m.linkKnown.successors? "b" = .ok ["a"] ∧ m.linkKnown.predecessors? "a" = .ok ["a", "b"] ∧
      m'.linkIncremental = .error (.unknownNode "y") ∧
      (m'.members.flatMap fun member => m'.parentMap.getD member.id []).find?
        (fun p => !m'.parentMap.contains p) = some "y" := by
  intro m m'
  have hg : m.linkIncremental = .ok m.linkKnown := by decide +kernel
  have he : m'.linkIncremental = .error (.unknownNode "y") := by decide +kernel
  have hkeys : m.parentMap.keys = ["a", "b"] := by decide +kernel
  have hchildren : m.childMap["b"]? = some ["a"] := by decide +kernel
  have hparents : m.parentMap["a"]? = some ["b", "a"] := by decide +kernel
  obtain ⟨hnodes, -, hsuccessors, hpredecessors⟩ := (linkIncremental_iff_no_dangling m {} "now").2.2.1 _ hg
  obtain ⟨d, hd, hfirst⟩ := (linkIncremental_iff_no_dangling m' {} "now").2.2.2 _ he
  obtain rfl := GraphError.unknownNode.inj hd
  refine ⟨hg, hnodes.trans hkeys, ?_, ?_, he, hfirst⟩
  · rw [hsuccessors, hchildren]
  · rw [hpredecessors, hparents]
    simp [List.mergeSort, List.MergeSort.Internal.splitInTwo]

end Lineage.Manifest
