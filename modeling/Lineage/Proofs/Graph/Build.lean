import Lineage.Graph.Contract
import Lineage.Proofs.Graph.Search

/-!
# Building a graph from lists

What is seen of a graph after many insertions of nodes or edges. Where the kind of an edge depends
only on its ends, the order of the insertions does not matter (`kind?_insertEdges`). A graph all of
whose edges are dependencies is given by two predicates (`Links`), which each operation turns into
others.
-/

namespace Lineage.Graph

variable {g : Graph} {ids : List NodeId} {pairs : List (NodeId × NodeId)}
  {kind : NodeId → NodeId → EdgeKind} {u v : NodeId}

theorem contains_insertNodes :
    (ids.foldl insertNode g).contains u = true ↔ g.contains u = true ∨ u ∈ ids := by
  induction ids generalizing g with
  | nil => simp
  | cons a rest ih =>
    rw [List.foldl_cons, ih, contains_insertNode, List.mem_cons]
    simp only [Bool.or_eq_true, beq_iff_eq, eq_comm (a := a)]
    rw [or_comm (a := u = a), or_assoc]

theorem kind?_insertNodes : (ids.foldl insertNode g).kind? u v = g.kind? u v := by
  induction ids generalizing g with
  | nil => rfl
  | cons a rest ih => rw [List.foldl_cons, ih, kind?_insertNode]

/-- The graph with an edge for each pair, of the kind that belongs to its ends. -/
def insertEdges (kind : NodeId → NodeId → EdgeKind) (g : Graph) (pairs : List (NodeId × NodeId)) :
    Graph :=
  pairs.foldl (fun g p => g.insertEdge p.1 p.2 (kind p.1 p.2)) g

theorem contains_insertEdges : (g.insertEdges kind pairs).contains u = g.contains u := by
  unfold insertEdges
  induction pairs generalizing g with
  | nil => rfl
  | cons p rest ih => rw [List.foldl_cons, ih, contains_insertEdge]

theorem insertEdge_of_unknown {k : EdgeKind} (h : ¬ (g.contains u = true ∧ g.contains v = true)) :
    g.insertEdge u v k = g := by
  by_cases hv : g.contains v = true
  · have hu : g.rows[u]? = none := row_eq_none (by simpa [hv] using h)
    refine ext_view (fun w => contains_insertEdge) fun a b => ?_
    rw [insertEdge, dif_pos (contains_iff_mem.1 hv)]
    simp only [kind?, Std.ExtTreeMap.getElem?_modify, Std.LawfulEqOrd.compare_eq_iff_eq]
    by_cases ha : u = a
    · subst ha
      simp [hu]
    · simp [ha]
  · rw [insertEdge, dif_neg fun hmem => hv (contains_iff_mem.2 hmem)]

theorem addEdge_of_known {k : EdgeKind} (hu : g.contains u = true) (hv : g.contains v = true) :
    g.addEdge u v k = .ok (g.insertEdge u v k) := by
  simp [addEdge, known, hu, hv, bind, Except.bind, pure, Except.pure]

/-- A pair makes an edge if both its ends are nodes. -/
theorem kind?_insertEdges :
    (g.insertEdges kind pairs).kind? u v =
      if (u, v) ∈ pairs ∧ g.contains u = true ∧ g.contains v = true then some (kind u v)
      else g.kind? u v := by
  unfold insertEdges
  induction pairs generalizing g with
  | nil => simp
  | cons p rest ih =>
    obtain ⟨a, b⟩ := p
    rw [List.foldl_cons, ih, contains_insertEdge, contains_insertEdge]
    by_cases hab : g.contains a = true ∧ g.contains b = true
    · rw [kind?_insertEdge hab.1 hab.2]
      by_cases he : a = u ∧ b = v
      · obtain ⟨rfl, rfl⟩ := he
        simp [hab]
      · have hne : ¬ (u = a ∧ v = b) := fun h => he ⟨h.1.symm, h.2.symm⟩
        simp [he, hne]
    · rw [insertEdge_of_unknown hab]
      by_cases he : u = a ∧ v = b
      · obtain ⟨rfl, rfl⟩ := he
        simp [hab]
      · simp [he]

theorem insertEdges_append {more : List (NodeId × NodeId)} :
    g.insertEdges kind (pairs ++ more) = (g.insertEdges kind pairs).insertEdges kind more :=
  List.foldl_append

/-- The order of the pairs and their repetitions make no difference. -/
theorem insertEdges_congr {pairs' : List (NodeId × NodeId)}
    (h : ∀ u v, (u, v) ∈ pairs ↔ (u, v) ∈ pairs') : g.insertEdges kind pairs = g.insertEdges kind pairs' := by
  refine ext_view (fun u => ?_) fun u v => ?_
  · rw [contains_insertEdges, contains_insertEdges]
  · simp only [kind?_insertEdges, h]

theorem contains_ofNodes {s : NodeSet} : (ofNodes s).contains u = true ↔ u ∈ s := by
  unfold ofNodes
  rw [contains_insertNodes, contains_empty, Std.ExtTreeSet.mem_toList]
  simp

theorem kind?_ofNodes {s : NodeSet} : (ofNodes s).kind? u v = none := by
  unfold ofNodes
  rw [kind?_insertNodes, kind?_empty]

theorem mem_members : u ∈ g.members ids ↔ u ∈ ids ∧ g.contains u = true := by
  unfold members
  rw [mem_ofList, List.mem_filter]

/-! ## Graphs of dependencies -/

/-- A graph of these nodes in which all edges are dependencies, namely these. -/
structure Links (g : Graph) (node : NodeId → Prop) (dep : NodeId → NodeId → Prop) : Prop where
  nodes : ∀ u, g.contains u = true ↔ node u
  edges : ∀ u v kind, g.kind? u v = some kind ↔ kind = .dependency ∧ dep u v

section
variable {h : Graph} {node : NodeId → Prop} {dep dep' : NodeId → NodeId → Prop}

theorem Links.congr {node' : NodeId → Prop} (hg : Links g node dep) (hnode : ∀ u, node u ↔ node' u)
    (hdep : ∀ u v, dep u v ↔ dep' u v) : Links g node' dep' := by
  refine ⟨fun u => ?_, fun u v kind => ?_⟩
  · rw [hg.nodes, hnode]
  · rw [hg.edges, hdep]

/-- Graphs of dependencies on the same nodes are equal if their edges are the same. -/
theorem Links.eq_iff (hg : Links g node dep) (hh : Links h node dep') :
    g = h ↔ ∀ u v, dep u v ↔ dep' u v := by
  constructor
  · rintro rfl u v
    have he := hg.edges u v .dependency
    rw [hh.edges] at he
    simpa using he.symm
  · intro hdep
    refine ext_view (fun u => ?_) fun u v => ?_
    · rw [Bool.eq_iff_iff, hg.nodes, hh.nodes]
    · refine Option.ext fun kind => ?_
      rw [hg.edges, hh.edges, hdep]

/-- The graph with a dependency for each pair. -/
def insertDependencies (g : Graph) (pairs : List (NodeId × NodeId)) : Graph :=
  g.insertEdges (fun _ _ => .dependency) pairs

theorem Links.insertDependencies (hg : Links g node dep) :
    Links (g.insertDependencies pairs) node fun u v => dep u v ∨ (u, v) ∈ pairs ∧ node u ∧ node v := by
  refine ⟨fun u => ?_, fun u v kind => ?_⟩
  · unfold Graph.insertDependencies
    rw [contains_insertEdges, hg.nodes]
  · unfold Graph.insertDependencies
    rw [kind?_insertEdges]
    split
    · rename_i hp
      rw [hg.nodes, hg.nodes] at hp
      simp [hp, eq_comm]
    · rename_i hp
      rw [hg.nodes, hg.nodes] at hp
      rw [hg.edges]
      simp [hp]

end

end Lineage.Graph
