import Lineage.Graph.Basic

/-!
# The view of a graph

A graph is seen through `contains` and `kind?`: which nodes there are, and the kind of the edge
between two of them. Two graphs with the same view are equal (`ext_view`), and there is one equation
per operation and half of the view.
-/

namespace Lineage.Graph

variable {g h : Graph} {u v a b : NodeId} {kind : EdgeKind}

/-! ## The view determines the graph -/

theorem contains_iff_mem : g.contains u = true ↔ u ∈ g.rows :=
  Std.ExtTreeMap.contains_iff_mem

theorem contains_iff_exists_row : g.contains u = true ↔ ∃ row, g.rows[u]? = some row := by
  rw [contains_iff_mem, Std.ExtTreeMap.mem_iff_isSome_getElem?, Option.isSome_iff_exists]

theorem row_eq_none (hu : g.contains u = false) : g.rows[u]? = none := by
  apply Std.ExtTreeMap.getElem?_eq_none
  rw [← contains_iff_mem, hu]
  decide

theorem kind?_of_row {row : Row} (hu : g.rows[u]? = some row) : g.kind? u v = row[v]? := by
  simp [kind?, hu]

/-- Both ends of an edge are nodes. -/
theorem contains_source (he : g.kind? u v = some kind) : g.contains u = true := by
  obtain ⟨row, hrow, -⟩ := Option.bind_eq_some_iff.1 he
  exact contains_iff_exists_row.2 ⟨row, hrow⟩

theorem contains_target (he : g.kind? u v = some kind) : g.contains v = true := by
  obtain ⟨row, hrow, hv⟩ := Option.bind_eq_some_iff.1 he
  exact contains_iff_mem.2 (g.closed u row v hrow (Std.ExtTreeMap.mem_iff_isSome_getElem?.2
    (by simp [hv])))

theorem kind?_eq_none_of_source (hu : g.contains u = false) : g.kind? u v = none := by
  simp [kind?, row_eq_none hu]

theorem kind?_eq_none_of_target (hv : g.contains v = false) : g.kind? u v = none := by
  cases he : g.kind? u v with
  | none => rfl
  | some kind => simp [contains_target he] at hv

/-- Graphs with the same nodes and the same kinds of edges are equal. -/
theorem ext_view (hnode : ∀ u, g.contains u = h.contains u)
    (hkind : ∀ u v, g.kind? u v = h.kind? u v) : g = h := by
  obtain ⟨rows, closed⟩ := g
  obtain ⟨rows', closed'⟩ := h
  congr 1
  apply Std.ExtTreeMap.ext_getElem?
  intro u
  have hu := hnode u
  simp only [contains] at hu
  cases hrow : rows[u]? with
  | none =>
    cases hrow' : rows'[u]? with
    | none => rfl
    | some row' => simp [Std.ExtTreeMap.contains_eq_isSome_getElem?, hrow, hrow'] at hu
  | some row =>
    cases hrow' : rows'[u]? with
    | none => simp [Std.ExtTreeMap.contains_eq_isSome_getElem?, hrow, hrow'] at hu
    | some row' =>
      congr 1
      apply Std.ExtTreeMap.ext_getElem?
      intro v
      simpa [kind?, hrow, hrow'] using hkind u v

/-! ## Nodes -/

/-- The order of identities tells them apart as equality does. -/
theorem compare_beq_eq : (compare u v == .eq) = (u == v) := by
  rw [Bool.eq_iff_iff]
  simp

@[simp] theorem contains_empty : (∅ : Graph).contains u = false :=
  Std.ExtTreeMap.contains_empty

@[simp] theorem kind?_empty : (∅ : Graph).kind? u v = none := kind?_eq_none_of_source contains_empty

@[simp] theorem contains_insertNode : (g.insertNode a).contains u = (a == u || g.contains u) := by
  simp [contains, insertNode, Std.ExtTreeMap.contains_insertIfNew, compare_beq_eq]

@[simp] theorem kind?_insertNode : (g.insertNode a).kind? u v = g.kind? u v := by
  simp only [kind?, insertNode, Std.ExtTreeMap.getElem?_insertIfNew]
  split
  · next h =>
    obtain ⟨hau, hmem⟩ := h
    obtain rfl := Std.LawfulEqOrd.eq_of_compare hau
    simp [Std.ExtTreeMap.getElem?_eq_none hmem]
  · rfl

@[simp] theorem contains_eraseNode : (g.eraseNode a).contains u = (a != u && g.contains u) := by
  simp [contains, eraseNode, Std.ExtTreeMap.contains_erase, bne, compare_beq_eq]

@[simp] theorem kind?_eraseNode :
    (g.eraseNode a).kind? u v = if a = u ∨ a = v then none else g.kind? u v := by
  simp only [kind?, eraseNode, Std.ExtTreeMap.getElem?_map, Std.ExtTreeMap.getElem?_erase,
    Std.LawfulEqOrd.compare_eq_iff_eq]
  by_cases hu : a = u
  · simp [hu]
  · by_cases hv : a = v
    · cases g.rows[u]? <;> simp [hv]
    · cases g.rows[u]? <;> simp [hu, hv, Std.ExtTreeMap.getElem?_erase]

theorem mem_nodes : u ∈ g.nodes ↔ g.contains u = true := by
  simp [nodes, contains]

/-! ## Edges -/

@[simp] theorem contains_insertEdge : (g.insertEdge a b kind).contains u = g.contains u := by
  unfold insertEdge
  split
  · simp [contains, Std.ExtTreeMap.contains_modify]
  · rfl

theorem kind?_insertEdge (ha : g.contains a = true) (hb : g.contains b = true) :
    (g.insertEdge a b kind).kind? u v = if a = u ∧ b = v then some kind else g.kind? u v := by
  obtain ⟨row, hrow⟩ := contains_iff_exists_row.1 ha
  rw [insertEdge, dif_pos (contains_iff_mem.1 hb)]
  simp only [kind?, Std.ExtTreeMap.getElem?_modify, Std.LawfulEqOrd.compare_eq_iff_eq]
  by_cases hu : a = u
  · subst hu
    simp [hrow, Std.ExtTreeMap.getElem?_insert]
  · simp [hu]

@[simp] theorem contains_eraseEdge : (g.eraseEdge a b).contains u = g.contains u := by
  simp [contains, eraseEdge, Std.ExtTreeMap.contains_modify]

@[simp] theorem kind?_eraseEdge :
    (g.eraseEdge a b).kind? u v = if a = u ∧ b = v then none else g.kind? u v := by
  simp only [kind?, eraseEdge, Std.ExtTreeMap.getElem?_modify, Std.LawfulEqOrd.compare_eq_iff_eq]
  by_cases hu : a = u
  · subst hu
    cases g.rows[a]? <;> simp [Std.ExtTreeMap.getElem?_erase]
  · simp [hu]

theorem mem_successors : v ∈ g.successors u ↔ ∃ kind, g.kind? u v = some kind := by
  cases hu : g.rows[u]? with
  | none => simp [successors, kind?, hu]
  | some row =>
    rw [kind?_of_row hu, ← Option.isSome_iff_exists, ← Std.ExtTreeMap.mem_iff_isSome_getElem?]
    simp [successors, hu]

theorem mem_predecessors : u ∈ g.predecessors v ↔ ∃ kind, g.kind? u v = some kind := by
  rw [predecessors, List.mem_filter, mem_nodes, Option.isSome_iff_exists]
  exact ⟨And.right, fun he => ⟨contains_source he.choose_spec, he⟩⟩

theorem mem_edges : (u, v, kind) ∈ g.edges ↔ g.kind? u v = some kind := by
  simp only [edges, List.mem_flatMap, List.mem_map, Prod.mk.injEq, Prod.exists,
    Std.ExtTreeMap.mem_toList_iff_getElem?_eq_some]
  constructor
  · rintro ⟨u, row, hrow, v, kind, hv, rfl, rfl, rfl⟩
    rwa [kind?_of_row hrow]
  · intro he
    obtain ⟨row, hrow, hv⟩ := Option.bind_eq_some_iff.1 he
    exact ⟨u, row, hrow, v, kind, hv, rfl, rfl, rfl⟩

end Lineage.Graph
