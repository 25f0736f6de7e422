import Lineage.Proofs.Graph.IndexedContract

/-!
# Cutting a graph down to some of its nodes

A graph is cut down to chosen nodes by putting the edges between them into a new graph. The other way is to remove
all other nodes, in some order. Both graphs are described by their nodes and the kinds of their edges
(`Graph.kind?_induce`, `Graph.kind?_eraseNodes`), where the order of the removals is no longer seen
(`Graph.eraseNodes_eq_induce`).

In an arena the two ways differ more: a scan of all edges fills a new arena, and removals free slots of the old
one. The new one holds what it should (`Indexed.Represents.exists_induce`), so they look the same as well
(`induce_eq_removal`).
-/

namespace Lineage

namespace Graph

variable {g : Graph} {s : NodeSet} {ids order : List NodeId} {u v : NodeId} {kind : EdgeKind}

/-! ## Nodes removed one after the other -/

/-- The list has the nodes that are not among `ids`, in any order and any number of times. -/
def Others (g : Graph) (ids order : List NodeId) : Prop := ∀ u, g.contains u = true → (u ∈ order ↔ u ∉ ids)

theorem runAll_removeNode :
    (Edit.runAll apply g (order.map .removeNode)).2 = order.foldl eraseNode g := by
  induction order generalizing g with
  | nil => rfl
  | cons id rest ih => exact ih

theorem contains_eraseNodes :
    (order.foldl eraseNode g).contains u = true ↔ g.contains u = true ∧ u ∉ order := by
  induction order generalizing g with
  | nil => simp
  | cons id rest ih =>
    rw [List.foldl_cons, ih, contains_eraseNode]
    simp only [Bool.and_eq_true, bne_iff_ne, List.mem_cons, not_or]
    tauto

theorem kind?_eraseNodes :
    (order.foldl eraseNode g).kind? u v = if u ∈ order ∨ v ∈ order then none else g.kind? u v := by
  induction order generalizing g with
  | nil => simp
  | cons id rest ih =>
    rw [List.foldl_cons, ih, kind?_eraseNode]
    by_cases hrest : u ∈ rest ∨ v ∈ rest
    · rw [if_pos hrest, if_pos (hrest.imp (List.mem_cons_of_mem id) (List.mem_cons_of_mem id))]
    · rw [if_neg hrest]
      refine if_congr ?_ rfl rfl
      rw [List.mem_cons, List.mem_cons]
      tauto

/-! ## Edges put into a new graph -/

/-- The kind of the edge between two nodes, where there is one. -/
def edgeKind (g : Graph) (u v : NodeId) : EdgeKind := (g.kind? u v).getD .dependency

/-- The ends of the edges between members. -/
def innerEnds (g : Graph) (s : NodeSet) : List (NodeId × NodeId) :=
  (g.edges.filter fun (u, v, _) => s.contains u && s.contains v).map fun (u, v, _) => (u, v)

theorem mem_innerEnds : (u, v) ∈ g.innerEnds s ↔ (u ∈ s ∧ v ∈ s) ∧ g.Edge u v := by
  unfold innerEnds Edge
  simp only [List.mem_map, List.mem_filter, Prod.exists, Prod.mk.injEq, mem_edges, Bool.and_eq_true,
    Std.ExtTreeSet.contains_iff_mem]
  constructor
  · rintro ⟨_, _, kind, ⟨he, hs⟩, rfl, rfl⟩
    exact ⟨hs, kind, he⟩
  · rintro ⟨hs, kind, he⟩
    exact ⟨u, v, kind, ⟨he, hs⟩, rfl, rfl⟩

theorem induce_eq_insertEdges :
    g.induce ids = (ofNodes (g.members ids)).insertEdges g.edgeKind (g.innerEnds (g.members ids)) := by
  unfold induce insertEdges innerEnds
  rw [List.foldl_map]
  refine List.foldl_ext _ _ _ fun result e he => ?_
  have hkind := mem_edges.1 (List.mem_of_mem_filter he)
  simp [edgeKind, hkind]

theorem contains_induce : (g.induce ids).contains u = true ↔ u ∈ ids ∧ g.contains u = true := by
  rw [induce_eq_insertEdges, contains_insertEdges, contains_ofNodes, mem_members]

/-- Between two chosen nodes there is the edge that there was. -/
theorem kind?_induce : (g.induce ids).kind? u v = if u ∈ ids ∧ v ∈ ids then g.kind? u v else none := by
  rw [induce_eq_insertEdges, kind?_insertEdges, kind?_ofNodes]
  cases he : g.kind? u v with
  | none =>
    rw [if_neg, ite_self]
    rintro ⟨hin, -⟩
    obtain ⟨-, kind, hkind⟩ := mem_innerEnds.1 hin
    rw [he] at hkind
    cases hkind
  | some kind =>
    -- The ends of an edge are nodes, so they are members if they are chosen.
    have hu : u ∈ g.members ids ↔ u ∈ ids := mem_members.trans (and_iff_left (contains_source he))
    have hv : v ∈ g.members ids ↔ v ∈ ids := mem_members.trans (and_iff_left (contains_target he))
    have hedge : g.Edge u v := ⟨kind, he⟩
    refine if_congr ?_ (by rw [edgeKind, he, Option.getD_some]) rfl
    rw [mem_innerEnds, contains_ofNodes, contains_ofNodes, hu, hv, and_iff_left hedge]
    exact and_iff_left_of_imp id

theorem eraseNodes_eq_induce (h : g.Others ids order) : order.foldl eraseNode g = g.induce ids := by
  refine ext_view (fun u => ?_) fun u v => ?_
  · rw [Bool.eq_iff_iff, contains_eraseNodes, contains_induce, and_comm]
    refine and_congr_left fun hu => ?_
    rw [h u hu, not_not]
  · rw [kind?_eraseNodes, kind?_induce]
    cases he : g.kind? u v with
    | none => simp
    | some kind =>
      simp only [h u (contains_source he), h v (contains_target he), ← not_and_or, ite_not]

theorem induce_induce {t : List NodeId} : (g.induce ids).induce t = g.induce (ids ∩ t) := by
  refine ext_view (fun u => ?_) fun u v => ?_
  · rw [Bool.eq_iff_iff]
    simp only [contains_induce, List.mem_inter_iff]
    tauto
  · simp only [kind?_induce, List.mem_inter_iff, ← ite_and]
    exact if_congr (by tauto) rfl rfl

/-- An edge between chosen nodes is one of the contracted graph, where it can have become a dependency. -/
theorem exists_kind?_contract (he : (g.induce ids).kind? u v = some kind) :
    ∃ kind', (g.contract ids).kind? u v = some kind' ∧
      (kind' = kind ∨ kind = .parentTest ∧ kind' = .dependency) := by
  rw [kind?_induce] at he
  split at he
  · rename_i hin
    have hu : u ∈ g.members ids := mem_members.2 ⟨hin.1, contains_source he⟩
    have hv : v ∈ g.members ids := mem_members.2 ⟨hin.2, contains_target he⟩
    refine ⟨_, kind?_contract.2 ⟨⟨hu, hv, v, ⟨kind, he⟩, .refl⟩, rfl⟩, ?_⟩
    cases kind with
    | dependency => exact .inl (bridgeKind_eq_dependency.2 ⟨hv, v, he, .refl⟩)
    | parentTest =>
      cases g.bridgeKind (g.members ids) u v with
      | dependency => exact .inr ⟨rfl, rfl⟩
      | parentTest => exact .inl rfl
  · cases he

end Graph

/-! ## In an arena -/

namespace Indexed

variable {A : Arena} {x : Indexed A} {g : Graph} {ids : List NodeId} {u v : NodeId}

/-- The edges of an arena between members. -/
def innerEdges (x : Indexed A) (members : Std.HashSet Nat) : List (Nat × ArenaEdge) :=
  (A.edgeRefs x.arena).filter fun r => members.contains r.2.source && members.contains r.2.target

/-- A new graph of the chosen nodes and the edges between them (`subgraph`). There is no answer only if an index is
missing. -/
def induce (x : Indexed A) (ids : List NodeId) : Option (Indexed A) :=
  let members := x.memberIndices ids
  (x.innerEdges members).foldlM (fun y r => y.connect (x.name r.2.source) (x.name r.2.target) r.2.kind)
    (ofNodes ((x.inOrder members.toList).map x.name))

/-- An edge of the arena between members is one of the graph. -/
theorem Represents.of_mem_innerEdges (hA : A.Lawful) (hx : x.Represents g.digraph) {r : Nat × ArenaEdge}
    (hr : r ∈ x.innerEdges (x.memberIndices ids)) :
    (x.name r.2.source ∈ g.members ids ∧ x.name r.2.target ∈ g.members ids) ∧
      g.kind? (x.name r.2.source) (x.name r.2.target) = some r.2.kind := by
  obtain ⟨hr, hin⟩ := List.mem_filter.1 hr
  rw [Bool.and_eq_true, Std.HashSet.contains_iff_mem, Std.HashSet.contains_iff_mem] at hin
  refine ⟨hin.imp (fun hs => ?_) fun ht => ?_, (hx.named_mem_iff hA (x.named r.2)).1 (List.mem_map_of_mem hr)⟩
  · exact (hx.mem_memberIndices_iff (hx.used_of_mem_memberIndices hs)).1 hs
  · exact (hx.mem_memberIndices_iff (hx.used_of_mem_memberIndices ht)).1 ht

/-- They are all edges of the graph between members. -/
theorem Represents.mem_innerEnds (hA : A.Lawful) (hx : x.Represents g.digraph) :
    (u, v) ∈ (x.innerEdges (x.memberIndices ids)).map (fun r => (x.name r.2.source, x.name r.2.target)) ↔
      (u, v) ∈ g.innerEnds (g.members ids) := by
  rw [Graph.mem_innerEnds, List.mem_map]
  constructor
  · rintro ⟨r, hr, heq⟩
    obtain ⟨rfl, rfl⟩ := Prod.mk.inj heq
    obtain ⟨hin, hkind⟩ := hx.of_mem_innerEdges hA hr
    exact ⟨hin, _, hkind⟩
  · rintro ⟨⟨hu, hv⟩, kind, he⟩
    obtain ⟨r, hr, hnamed⟩ := List.mem_map.1 ((hx.named_mem_iff hA (u, v, kind)).2 he)
    obtain ⟨rfl, hrest⟩ := Prod.mk.inj hnamed
    obtain ⟨rfl, -⟩ := Prod.mk.inj hrest
    obtain ⟨⟨_, hs⟩, _, ht⟩ := hx.ends _ _ ((hA.mem_edgeRefs _ _ _).1 hr)
    refine ⟨r, List.mem_filter.2 ⟨hr, ?_⟩, rfl⟩
    rw [Bool.and_eq_true, Std.HashSet.contains_iff_mem, Std.HashSet.contains_iff_mem]
    exact ⟨(hx.mem_memberIndices_iff (hx.isSome_node? hs)).2 hu,
      (hx.mem_memberIndices_iff (hx.isSome_node? ht)).2 hv⟩

/-- In an arena, a graph on a part of the nodes can be filled, and holds what it should. -/
theorem Represents.exists_induce (hA : A.Lawful) (hx : x.Represents g.digraph) (ids : List NodeId) :
    ∃ y, x.induce ids = some y ∧ y.Represents (g.induce ids).digraph := by
  have hnodes : (ofNodes ((x.inOrder (x.memberIndices ids).toList).map x.name) : Indexed A).Represents
      (Graph.ofNodes (g.members ids)).digraph := represents_ofNodes hA fun v => hx.mem_map_name_members
  -- The scan comes to the edges in no particular order, but with the kinds that the graph has for their ends.
  have hkind : ∀ r ∈ x.innerEdges (x.memberIndices ids),
      r.2.kind = g.edgeKind (x.name r.2.source) (x.name r.2.target) := fun r hr => by
    rw [Graph.edgeKind, (hx.of_mem_innerEdges hA hr).2, Option.getD_some]
  obtain ⟨y, hy, hrep⟩ := hnodes.exists_connectEach hA
    (fun r : Nat × ArenaEdge => (x.name r.2.source, x.name r.2.target))
    (fun r hr => (hx.of_mem_innerEdges hA hr).1.imp Graph.contains_ofNodes.2 Graph.contains_ofNodes.2) hkind
  refine ⟨y, hy, ?_⟩
  rwa [Graph.induce_eq_insertEdges, ← Graph.insertEdges_congr fun u v => hx.mem_innerEnds hA]

end Indexed

/-! ## Both ways agree -/

/-- **Cutting down is removal.** To cut a graph down to some nodes is to remove the others, in any order. So cutting
it down twice leaves the nodes that were chosen both times. Every edge that is left is also there when the other
nodes are contracted; it has its kind there, or was a test edge and is a dependency. After any edits that lead to
this graph, an arena can be cut down too, and looks like the one the other nodes were removed from. -/
theorem induce_eq_removal (g : Graph) :
    (∀ ids order, g.Others ids order →
      (Edit.runAll Graph.apply g (order.map .removeNode)).2 = g.induce ids) ∧
    (∀ s t : List NodeId, (g.induce s).induce t = g.induce (s ∩ t)) ∧
    (∀ ids u v kind, (g.induce ids).kind? u v = some kind →
      ∃ kind', (g.contract ids).kind? u v = some kind' ∧
        (kind' = kind ∨ kind = .parentTest ∧ kind' = .dependency)) ∧
    ∀ A : Arena, A.Lawful → ∀ edits : List Edit, (Edit.runAll Graph.apply ∅ edits).2 = g →
      let x := (Edit.runAll Indexed.apply (Indexed.empty : Indexed A) edits).2
      ∀ s : List NodeId, ∃ y, x.induce s = some y ∧ y.observe = (g.induce s).observe ∧
        (∀ order, g.Others s order →
          (Edit.runAll Indexed.apply x (order.map .removeNode)).2.observe = y.observe) ∧
        ∀ t, ∃ z, y.induce t = some z ∧ z.observe = (g.induce (s ∩ t)).observe := by
  refine ⟨fun ids order h => ?_, fun s t => Graph.induce_induce,
    fun ids u v kind => Graph.exists_kind?_contract, ?_⟩
  · rw [Graph.runAll_removeNode, Graph.eraseNodes_eq_induce h]
  · rintro A hA edits rfl x s
    have hx := represents_runAll hA edits
    obtain ⟨y, hy, hrep⟩ := hx.exists_induce hA s
    have hshows := hrep.shows_observe hA
    refine ⟨y, hy, hshows.unique (Graph.shows_observe _), fun order h => ?_, fun t => ?_⟩
    · have hremoved := hx.runAll hA (order.map .removeNode)
      rw [Graph.runAll_removeNode, Graph.eraseNodes_eq_induce h] at hremoved
      exact (hremoved.shows_observe hA).unique hshows
    · obtain ⟨z, hz, htwice⟩ := hrep.exists_induce hA t
      rw [Graph.induce_induce] at htwice
      exact ⟨z, hz, (htwice.shows_observe hA).unique (Graph.shows_observe _)⟩

/-- The slot of `c` is used again, `b` depends on itself, and the test edge from `b` to `a` is a dependency once `d`
is contracted. -/
theorem induce_eq_removal_reused_slot :
    let edits : List Edit :=
      [.ofEdges [("a", "b"), ("b", "b"), ("c", "a"), ("b", "d"), ("d", "a")], .removeNode "c", .addNode "e",
        .addEdge "b" "a" .parentTest, .addEdge "a" "e" .dependency]
    let g := (Edit.runAll Graph.apply ∅ edits).2
    let x := (Edit.runAll Indexed.apply (Indexed.empty : Indexed slotArena) edits).2
    let ids := ["b", "a", "unknown"]
    slotArena.Lawful ∧ g.Others ids ["e", "d"] ∧
      (Edit.runAll Graph.apply g [.removeNode "e", .removeNode "d"]).2 = g.induce ids ∧
      (g.induce ids).kind? "b" "a" = some .parentTest ∧
      (∃ kind', (g.contract ids).kind? "b" "a" = some kind' ∧
        (kind' = .parentTest ∨ EdgeKind.parentTest = .parentTest ∧ kind' = .dependency)) ∧
      (g.contract ids).kind? "b" "a" = some .dependency ∧
      ∃ y, x.induce ids = some y ∧
        y.observe.edges = [("a", "b", .dependency), ("b", "a", .parentTest), ("b", "b", .dependency)] ∧
        (Edit.runAll Indexed.apply x [.removeNode "e", .removeNode "d"]).2.observe = y.observe := by
  intro edits g x ids
  have hnodes : g.nodes = ["a", "b", "d", "e"] := by decide +kernel
  have hothers : g.Others ids ["e", "d"] := fun u hu => by
    have hu : u ∈ ["a", "b", "d", "e"] := hnodes ▸ Graph.mem_nodes.2 hu
    simp only [List.mem_cons, List.not_mem_nil, or_false] at hu
    rcases hu with rfl | rfl | rfl | rfl <;> decide
  obtain ⟨hremoval, -, hcontract, harena⟩ := induce_eq_removal g
  have hba : (g.induce ids).kind? "b" "a" = some .parentTest := by decide +kernel
  obtain ⟨y, hy, hview, hsame, -⟩ := harena slotArena slotArena_lawful edits rfl ids
  refine ⟨slotArena_lawful, hothers, hremoval ids ["e", "d"] hothers, hba,
    hcontract ids "b" "a" .parentTest hba, by decide +kernel, y, hy, ?_, hsame ["e", "d"] hothers⟩
  rw [hview]
  decide +kernel

end Lineage
