import Lineage.Proofs.Graph.IndexedReach
import Lineage.Proofs.Graph.Recontract

/-!
# Contraction by paths

The contracted graph has an edge between two chosen nodes for the paths between them that keep off the
chosen nodes on the way (`PathOutside`), and the edge is a dependency if one of these paths is made of
dependencies. In an arena the ends of such paths are found with a queue of nodes that were not chosen: each
goes into it once, at the end of a bridge, and all that is left by those that were taken was met
(`Crosses`). One search follows dependencies, another all edges, and their answers together give the edge
and its kind. The new arena is filled without ever missing an index, and shows the contracted graph
(`contract_by_paths`).
-/

namespace Lineage

/-! ## Paths -/

namespace Graph

variable {g : Graph} {r : NodeId → NodeId → Prop} {s : NodeSet} {ids : List NodeId} {u v : NodeId}

/-- There is a path of at least one step from `u` to `v` none of whose inner nodes was chosen. -/
def PathOutside (r : NodeId → NodeId → Prop) (ids : List NodeId) (u v : NodeId) : Prop :=
  ∃ inner : List NodeId, (∀ w ∈ inner, w ∉ ids) ∧ (u :: (inner ++ [v])).IsChain r

/-- A bridge is such a path, if steps lead to members exactly where they lead to chosen nodes. -/
theorem bridge_iff_pathOutside (hr : ∀ a b, r a b → (b ∈ s ↔ b ∈ ids)) :
    Bridge r s u v ↔ PathOutside r ids u v := by
  constructor
  · rintro ⟨w, huw, hwv⟩
    induction hwv using Relation.ReflTransGen.head_induction_on generalizing u with
    | refl => exact ⟨[], by simp, List.isChain_pair.2 huw⟩
    | @head a b hab _ ih =>
      obtain ⟨inner, hout, hchain⟩ := ih hab.2
      have ha : a ∉ ids := fun hmem => hab.1 ((hr u a huw).2 hmem)
      exact ⟨a :: inner, List.forall_mem_cons.2 ⟨ha, hout⟩, List.isChain_cons_cons.2 ⟨huw, hchain⟩⟩
  · rintro ⟨inner, hout, hchain⟩
    induction inner generalizing u with
    | nil => exact ⟨v, List.isChain_pair.1 hchain, .refl⟩
    | cons w inner ih =>
      obtain ⟨hw, hrest⟩ := List.forall_mem_cons.1 hout
      obtain ⟨huw, hchain⟩ := List.isChain_cons_cons.1 hchain
      exact (ih hrest hchain).cons huw fun hmem => hw ((hr u w huw).1 hmem)

/-- Between members, bridges over edges of the graph are the paths outside the choice. -/
theorem memberBridge_iff (hr : ∀ a b, r a b → g.Edge a b) :
    MemberBridge r (g.members ids) u v ↔ (u ∈ ids ∧ v ∈ ids) ∧ PathOutside r ids u v := by
  have hstep : ∀ a b, r a b → (b ∈ g.members ids ↔ b ∈ ids) := fun a b hab => by
    rw [mem_members, and_iff_left (hr a b hab).target]
  rw [← bridge_iff_pathOutside hstep]
  unfold MemberBridge
  rw [← and_assoc]
  refine and_congr_left fun hb => ?_
  obtain ⟨hu, hv⟩ := contains_of_transGen (Relation.TransGen.mono hr _ _ hb.transGen)
  rw [mem_members, mem_members, and_iff_left hu, and_iff_left hv]

/-- The edges that are no dependencies are test edges. -/
theorem kind?_eq_parentTest : g.kind? u v = some .parentTest ↔ g.Edge u v ∧ ¬ g.Dependency u v := by
  unfold Edge Dependency
  cases g.kind? u v with
  | none => simp
  | some kind => cases kind <;> simp

end Graph

open Lineage.Graph (Bridge PathOutside)

namespace Indexed

variable {A : Arena}

/-! ## The search for members -/

/-- A search over nodes that are no members (in `reachable_members`). -/
structure Crossing where
  /-- The non-members that were met. -/
  met : Std.HashSet Nat
  /-- The members that were met. -/
  reached : Std.HashSet Nat

/-- Where the edges lead that leave a node, as far as they may be followed. -/
def targets (x : Indexed A) (dependenciesOnly : Bool) (i : Nat) : List Nat :=
  x.ends .forward (fun kind => !dependenciesOnly || kind.traversable) i

/-- Meets what a node leads to (in `reachable_members`). Only non-members go into the queue. -/
def Crossing.visit (x : Indexed A) (members : Std.HashSet Nat) (dependenciesOnly : Bool) (w : Crossing)
    (i : Nat) : Crossing × List Nat :=
  let targets := x.targets dependenciesOnly i
  let (new, met) := mark w.met (targets.filter fun j => !members.contains j)
  (⟨met, w.reached.insertMany (targets.filter members.contains)⟩, new)

/-- The members that a path from this one leads to whose inner nodes are all non-members
(`reachable_members`). -/
def reachedMembers (x : Indexed A) (members : Std.HashSet Nat) (dependenciesOnly : Bool) (i : Nat) :
    Option (Std.HashSet Nat) :=
  (drain (Crossing.visit x members dependenciesOnly) (A.nodeCount x.arena + 1) ⟨∅, ∅⟩ [i]).map (·.reached)

/-! ## The contracted graph -/

/-- Gives the edge between two nodes this kind, or adds it. Both are known to be in the table. -/
def connect (y : Indexed A) (u v : NodeId) (kind : EdgeKind) : Option (Indexed A) := do
  let i ← y.table[u]?
  let j ← y.table[v]?
  return y.upsertEdge i j kind

/-- Adds the edges that leave a member once the non-members are contracted away (in `get_subset_graph`). -/
def connectRow (x : Indexed A) (members : Std.HashSet Nat) (y : Indexed A) (i : Nat) :
    Option (Indexed A) := do
  let viaDependencies ← x.reachedMembers members true i
  let viaAny ← x.reachedMembers members false i
  viaAny.toList.foldlM (fun y j =>
    y.connect (x.name i) (x.name j) (if viaDependencies.contains j then .dependency else .parentTest)) y

/-- The indices of the chosen nodes (`member_indices`). -/
def memberIndices (x : Indexed A) (ids : List NodeId) : Std.HashSet Nat :=
  .ofList (ids.filterMap fun id => x.table[id]?)

/-- The graph of these nodes without edges. -/
def ofNodes (ids : List NodeId) : Indexed A := ids.foldl (fun y id => (y.addNode id).2) empty

/-- There is no answer only if a search did not come to an end or an index is missing. -/
def contract (x : Indexed A) (ids : List NodeId) : Option (Indexed A) :=
  let members := x.memberIndices ids
  let ordered := x.inOrder members.toList
  ordered.foldlM (x.connectRow members) (ofNodes (ordered.map x.name))

/-! ## What has been met -/

variable {x y : Indexed A} {g h : Graph} {s : NodeSet} {members : Std.HashSet Nat} {only : Bool}
  {i j : Nat} {u v : NodeId} {w : Crossing} {log done queue : List Nat}

theorem Represents.mem_targets (hA : A.Lawful) (hx : x.Represents g.digraph) (hi : x.Used i) :
    (∃ j ∈ x.targets only i, x.name j = v) ↔ g.Route only (x.name i) v := by
  unfold targets
  cases only with
  | true =>
    rw [Graph.route_true, ← Graph.along_forward]
    exact hx.mem_ends_traversable hA hi
  | false =>
    rw [Graph.route_false, hx.mem_ends hA hi]
    simp only [Bool.not_false, Bool.true_or, and_true]
    rfl

theorem Crossing.mem_more :
    j ∈ (w.visit x members only i).2 ↔ (j ∈ x.targets only i ∧ j ∉ members) ∧ j ∉ w.met := by
  simp [visit, mem_mark]

theorem Crossing.mem_met :
    j ∈ (w.visit x members only i).1.met ↔ j ∈ w.met ∨ j ∈ x.targets only i ∧ j ∉ members := by
  simp [visit, mem_marked]

theorem Crossing.mem_reached :
    j ∈ (w.visit x members only i).1.reached ↔
      j ∈ w.reached ∨ j ∈ x.targets only i ∧ j ∈ members := by
  simp [visit, Std.HashSet.mem_insertMany_list]

/-- What a search from `i` put into its queue, in order: each node once, a non-member at the end of a
bridge. -/
structure Crossed (x : Indexed A) (g : Graph) (s : NodeSet) (only : Bool) (i : Nat) (log : List Nat)
    (w : Crossing) : Prop where
  used : ∀ j ∈ log, x.Used j
  distinct : log.Nodup
  met : ∀ j, j ∈ w.met ↔ j ∈ log
  outside : ∀ j ∈ log, x.name j ∉ s
  bridge : ∀ j ∈ log, Bridge (g.Route only) s (x.name i) (x.name j)
  reached : ∀ j ∈ w.reached, x.Used j ∧ x.name j ∈ s ∧ Bridge (g.Route only) s (x.name i) (x.name j)

/-- Where a search stands that took the entries `done`: whatever they lead to was met. -/
structure Crosses (x : Indexed A) (g : Graph) (s : NodeSet) (only : Bool) (i : Nat) (done : List Nat)
    (w : Crossing) (queue : List Nat) : Prop where
  log : ∃ log, done ++ queue = i :: log ∧ x.Crossed g s only i log w
  passed : ∀ j ∈ done, ∀ v, g.Route only (x.name j) v → ∃ k, x.name k = v ∧ (k ∈ w.reached ∨ k ∈ w.met)

theorem Crosses.start : x.Crosses g s only i [] ⟨∅, ∅⟩ [i] where
  log := ⟨[], rfl, by simp, .nil, by simp, by simp, by simp, by simp⟩
  passed := by simp

/-- A step from where the search has been ends at the end of a bridge. -/
theorem Crossed.bridge_of_step (hw : x.Crossed g s only i log w) (hj : j ∈ i :: log)
    (hstep : g.Route only (x.name j) v) : Bridge (g.Route only) s (x.name i) v := by
  have hsingle : Bridge (g.Route only) s (x.name j) v := ⟨v, hstep, .refl⟩
  rcases List.mem_cons.1 hj with rfl | hj
  · exact hsingle
  · exact (hw.bridge j hj).trans (hw.outside j hj) hsingle

/-- One round at a node that the search put into its queue. -/
theorem Crossed.visit (hA : A.Lawful) (hx : x.Represents g.digraph)
    (hmembers : ∀ j, x.Used j → (j ∈ members ↔ x.name j ∈ s)) (hw : x.Crossed g s only i log w)
    (hj : j ∈ i :: log) (hused : x.Used j) :
    x.Crossed g s only i (log ++ (w.visit x members only j).2) (w.visit x members only j).1 := by
  -- what this round meets is at the end of a bridge, be it a member or not
  have hend : ∀ k ∈ x.targets only j, x.Used k ∧ Bridge (g.Route only) s (x.name i) (x.name k) :=
    fun k hk => ⟨hx.used_of_mem_ends hA hk,
      hw.bridge_of_step hj ((hx.mem_targets hA hused).1 ⟨k, hk, rfl⟩)⟩
  refine ⟨?_, ?_, fun k => ?_, ?_, ?_, fun k hk => ?_⟩
  · refine List.forall_mem_append.2 ⟨hw.used, fun k hk => ?_⟩
    exact (hend k (Crossing.mem_more.1 hk).1.1).1
  · refine List.nodup_append'.2 ⟨hw.distinct, nodup_mark, fun k hk hk' => ?_⟩
    exact (Crossing.mem_more.1 hk').2 ((hw.met k).2 hk)
  · rw [List.mem_append, Crossing.mem_more, Crossing.mem_met, hw.met]
    tauto
  · refine List.forall_mem_append.2 ⟨hw.outside, fun k hk hs => ?_⟩
    obtain ⟨⟨htarget, hout⟩, -⟩ := Crossing.mem_more.1 hk
    exact hout ((hmembers k (hend k htarget).1).2 hs)
  · refine List.forall_mem_append.2 ⟨hw.bridge, fun k hk => ?_⟩
    exact (hend k (Crossing.mem_more.1 hk).1.1).2
  · rcases Crossing.mem_reached.1 hk with hk | ⟨htarget, hin⟩
    · exact hw.reached k hk
    · obtain ⟨hk, hbridge⟩ := hend k htarget
      exact ⟨hk, (hmembers k hk).1 hin, hbridge⟩

theorem Crosses.visit (hA : A.Lawful) (hx : x.Represents g.digraph) (hi : x.Used i)
    (hmembers : ∀ j, x.Used j → (j ∈ members ↔ x.name j ∈ s))
    (hw : x.Crosses g s only i done w (j :: queue)) :
    x.Crosses g s only i (done ++ [j]) (w.visit x members only j).1
      (queue ++ (w.visit x members only j).2) := by
  obtain ⟨log, hlog, hcrossed⟩ := hw.log
  have hj : j ∈ i :: log := hlog ▸ List.mem_append_right _ List.mem_cons_self
  have hused : x.Used j := List.forall_mem_cons.2 ⟨hi, hcrossed.used⟩ j hj
  refine ⟨⟨_, ?_, hcrossed.visit hA hx hmembers hj hused⟩, ?_⟩
  · rw [taken_append, hlog, List.cons_append]
  · refine List.forall_mem_append.2 ⟨fun k hk v hv => ?_, fun k hk v hv => ?_⟩
    · obtain ⟨t, hname, ht⟩ := hw.passed k hk v hv
      exact ⟨t, hname, ht.imp (fun h => Crossing.mem_reached.2 (.inl h)) fun h => Crossing.mem_met.2 (.inl h)⟩
    · rw [List.mem_singleton.1 hk] at hv
      obtain ⟨t, htarget, hname⟩ := (hx.mem_targets hA hused).2 hv
      refine ⟨t, hname, ?_⟩
      by_cases hin : t ∈ members
      · exact .inl (Crossing.mem_reached.2 (.inr ⟨htarget, hin⟩))
      · exact .inr (Crossing.mem_met.2 (.inr ⟨htarget, hin⟩))

theorem Crosses.length_le (hA : A.Lawful) (hw : x.Crosses g s only i done w queue) :
    (done ++ queue).length ≤ A.nodeCount x.arena + 1 := by
  obtain ⟨log, hlog, hcrossed⟩ := hw.log
  rw [hlog, List.length_cons]
  exact Nat.succ_le_succ (length_le_nodeCount hA hcrossed.distinct hcrossed.used)

/-- When no node waits, whatever bridges lead to was met. -/
theorem Crosses.exists_of_bridge (hw : x.Crosses g s only i done w [])
    (hb : Bridge (g.Route only) s (x.name i) v) :
    ∃ k, x.name k = v ∧ (k ∈ w.reached ∨ k ∈ w.met) := by
  obtain ⟨log, hlog, hcrossed⟩ := hw.log
  rw [List.append_nil] at hlog
  obtain ⟨b, hib, hbv⟩ := hb
  induction hbv with
  | refl => exact hw.passed i (hlog ▸ List.mem_cons_self) b hib
  | tail _ hstep ih =>
    obtain ⟨k, rfl, hk⟩ := ih
    -- `k` is no member, so it was in the queue
    have hmet : k ∈ w.met := hk.resolve_left fun hr => hstep.1 (hcrossed.reached k hr).2.1
    exact hw.passed k (hlog ▸ List.mem_cons_of_mem i ((hcrossed.met k).1 hmet)) _ hstep.2

/-- A search for members in an arena comes to an end, and finds what the search by identities finds. -/
theorem Represents.exists_reachedMembers (hA : A.Lawful) (hx : x.Represents g.digraph)
    (hmembers : ∀ j, x.Used j → (j ∈ members ↔ x.name j ∈ s)) (only : Bool) (hi : x.Used i) :
    ∃ reached, x.reachedMembers members only i = some reached ∧ (∀ j ∈ reached, x.Used j) ∧
      ∀ v, v ∈ g.reachedMembers s only (x.name i) ↔ ∃ j ∈ reached, x.name j = v := by
  obtain ⟨last, done, hrun, hend⟩ := exists_drain (x.Crosses g s only i) (A.nodeCount x.arena + 1)
    (fun _ _ _ _ hs => hs.visit hA hx hi hmembers) (fun _ _ _ hs => hs.length_le hA) Crosses.start
    (by simp)
  obtain ⟨log, -, hcrossed⟩ := hend.log
  refine ⟨last.reached, by rw [reachedMembers, hrun]; rfl, fun j hj => (hcrossed.reached j hj).1, ?_⟩
  intro v
  rw [Graph.mem_reachedMembers]
  constructor
  · rintro ⟨hv, hb⟩
    obtain ⟨j, rfl, hj⟩ := hend.exists_of_bridge hb
    exact ⟨j, hj.resolve_right fun hmet => hcrossed.outside j ((hcrossed.met j).1 hmet) hv, rfl⟩
  · rintro ⟨j, hj, rfl⟩
    exact (hcrossed.reached j hj).2

/-! ## What is built -/

theorem Represents.exists_connect (hA : A.Lawful) (hy : y.Represents h.digraph) {kind : EdgeKind}
    (hu : h.contains u = true) (hv : h.contains v = true) :
    ∃ y', y.connect u v kind = some y' ∧ y'.Represents (h.insertEdge u v kind).digraph := by
  obtain ⟨i, hi, -⟩ := hy.exists_index hu
  obtain ⟨j, hj, -⟩ := hy.exists_index hv
  refine ⟨y.upsertEdge i j kind, by simp [connect, hi, hj], ?_⟩
  rw [Graph.digraph_insertEdge]
  exact hy.upsertEdge hA hi hj

/-- Edges between nodes, each of the kind that belongs to its ends. -/
theorem Represents.exists_connectEach (hA : A.Lawful) (hy : y.Represents h.digraph) {α : Type}
    {kind : NodeId → NodeId → EdgeKind} (ends : α → NodeId × NodeId) {kindOf : α → EdgeKind} {links : List α}
    (hends : ∀ a ∈ links, h.contains (ends a).1 = true ∧ h.contains (ends a).2 = true)
    (hkind : ∀ a ∈ links, kindOf a = kind (ends a).1 (ends a).2) :
    ∃ last, links.foldlM (fun y a => y.connect (ends a).1 (ends a).2 (kindOf a)) y = some last ∧
      last.Represents (h.insertEdges kind (links.map ends)).digraph := by
  refine exists_foldlM
    (fun done (y : Indexed A) => y.Represents (h.insertEdges kind (done.map ends)).digraph)
    (fun done y a ha hy => ?_) hy
  obtain ⟨y', hy', hnext⟩ := hy.exists_connect hA (Graph.contains_insertEdges.trans (hends a ha).1)
    (Graph.contains_insertEdges.trans (hends a ha).2)
  rw [hkind a ha, List.map_append, Graph.insertEdges_append]
  exact ⟨y', hy', hnext⟩

/-- A member is told to be at the end of dependencies by its index as by its identity. -/
theorem Represents.kind_eq_bridgeKind (hx : x.Represents g.digraph) {via : Std.HashSet Nat}
    (hused : ∀ k ∈ via, x.Used k)
    (hvia : ∀ v, v ∈ g.reachedMembers s true u ↔ ∃ k ∈ via, x.name k = v) (hj : x.Used j) :
    (if via.contains j then EdgeKind.dependency else .parentTest) = g.bridgeKind s u (x.name j) := by
  refine if_congr ?_ rfl rfl
  rw [Std.HashSet.contains_iff_mem, Std.ExtTreeSet.contains_iff_mem, hvia]
  refine ⟨fun hmem => ⟨j, hmem, rfl⟩, ?_⟩
  rintro ⟨k, hk, hname⟩
  rwa [← (hx.name_inj (hused k hk) hj).1 hname]

/-- The edges that leave a member are those of the contracted graph. -/
theorem Represents.exists_connectRow (hA : A.Lawful) (hx : x.Represents g.digraph)
    (hmembers : ∀ j, x.Used j → (j ∈ members ↔ x.name j ∈ s)) (hi : x.Used i) (his : x.name i ∈ s)
    (hy : y.Represents h.digraph) (hs : ∀ v ∈ s, h.contains v = true) :
    ∃ y' pairs, x.connectRow members y i = some y' ∧
      (∀ u v, (u, v) ∈ pairs ↔ u = x.name i ∧ v ∈ g.reachedMembers s false u) ∧
      y'.Represents (h.insertEdges (g.bridgeKind s) pairs).digraph := by
  obtain ⟨viaDependencies, hdeps, hused, hdep⟩ := hx.exists_reachedMembers hA hmembers true hi
  obtain ⟨viaAny, hanys, hused', hany⟩ := hx.exists_reachedMembers hA hmembers false hi
  have hmem : ∀ j ∈ viaAny.toList, h.contains (x.name j) = true := fun j hj =>
    hs _ (Graph.mem_reachedMembers.1 ((hany _).2 ⟨j, Std.HashSet.mem_toList.1 hj, rfl⟩)).1
  obtain ⟨y', hy', hrep⟩ := hy.exists_connectEach hA (fun j => (x.name i, x.name j))
    (fun j hj => ⟨hs _ his, hmem j hj⟩) fun j hj =>
      hx.kind_eq_bridgeKind hused hdep (hused' j (Std.HashSet.mem_toList.1 hj))
  refine ⟨y', _, ?_, fun u v => ?_, hrep⟩
  · simp only [connectRow, hdeps, hanys, Option.bind_eq_bind, Option.bind_some, hy']
  · simp only [List.mem_map, Std.HashSet.mem_toList, Prod.mk.injEq]
    constructor
    · rintro ⟨j, hj, rfl, rfl⟩
      exact ⟨rfl, (hany _).2 ⟨j, hj, rfl⟩⟩
    · rintro ⟨rfl, hv⟩
      obtain ⟨j, hj, hname⟩ := (hany v).1 hv
      exact ⟨j, hj, rfl, hname⟩

/-- The edges that leave these members, one member after the other. -/
theorem Represents.exists_connectRows (hA : A.Lawful) (hx : x.Represents g.digraph)
    (hmembers : ∀ j, x.Used j → (j ∈ members ↔ x.name j ∈ s)) {indices : List Nat}
    (hindices : ∀ i ∈ indices, x.Used i ∧ x.name i ∈ s) (hy : y.Represents h.digraph)
    (hs : ∀ v ∈ s, h.contains v = true) :
    ∃ last, indices.foldlM (x.connectRow members) y = some last ∧ ∃ pairs,
      (∀ u v, (u, v) ∈ pairs ↔ u ∈ indices.map x.name ∧ v ∈ g.reachedMembers s false u) ∧
      last.Represents (h.insertEdges (g.bridgeKind s) pairs).digraph := by
  -- a row comes in the order of a hash set, so the pairs are kept as a set
  refine exists_foldlM
    (fun done (y : Indexed A) => ∃ pairs,
      (∀ u v, (u, v) ∈ pairs ↔ u ∈ done.map x.name ∧ v ∈ g.reachedMembers s false u) ∧
      y.Represents (h.insertEdges (g.bridgeKind s) pairs).digraph)
    (fun done y i hi => ?_) ⟨[], by simp, hy⟩
  rintro ⟨pairs, hpairs, hy⟩
  obtain ⟨hused, his⟩ := hindices i hi
  obtain ⟨y', row, hy', hrow, hnext⟩ := hx.exists_connectRow hA hmembers hused his hy fun v hv =>
    Graph.contains_insertEdges.trans (hs v hv)
  refine ⟨y', hy', pairs ++ row, fun u v => ?_, ?_⟩
  · rw [List.mem_append, hpairs, hrow, List.map_append, List.mem_append, List.map_singleton,
      List.mem_singleton, or_and_right]
  · rwa [Graph.insertEdges_append]

theorem Represents.addNodes (hA : A.Lawful) (hy : y.Represents h.digraph) (names : List NodeId) :
    (names.foldl (fun y id => (y.addNode id).2) y).Represents (names.foldl Graph.insertNode h).digraph := by
  induction names generalizing y h with
  | nil => exact hy
  | cons id rest ih =>
    have hnext := (hy.addNode hA id).2
    rw [← Graph.digraph_insertNode] at hnext
    exact ih hnext

theorem represents_ofNodes (hA : A.Lawful) {names : List NodeId} (hnames : ∀ v, v ∈ names ↔ v ∈ s) :
    (ofNodes names : Indexed A).Represents (Graph.ofNodes s).digraph := by
  have hempty := Represents.empty hA
  rw [← Graph.digraph_empty] at hempty
  have hnodes : names.foldl Graph.insertNode ∅ = Graph.ofNodes s := by
    refine Graph.ext_view (fun u => ?_) fun u v => ?_
    · rw [Bool.eq_iff_iff, Graph.contains_insertNodes, Graph.contains_ofNodes, hnames]
      simp
    · rw [Graph.kind?_insertNodes, Graph.kind?_ofNodes, Graph.kind?_empty]
  exact hnodes ▸ hempty.addNodes hA names

variable {ids : List NodeId}

theorem mem_memberIndices : j ∈ x.memberIndices ids ↔ ∃ id ∈ ids, x.table[id]? = some j := by
  unfold memberIndices
  rw [Std.HashSet.mem_ofList, List.contains_iff_mem, List.mem_filterMap]

theorem Represents.used_of_mem_memberIndices (hx : x.Represents g.digraph) (hj : j ∈ x.memberIndices ids) :
    x.Used j := by
  obtain ⟨id, -, hid⟩ := mem_memberIndices.1 hj
  exact hx.isSome_node? hid

theorem Represents.mem_memberIndices_iff (hx : x.Represents g.digraph) (hj : x.Used j) :
    j ∈ x.memberIndices ids ↔ x.name j ∈ g.members ids := by
  rw [mem_memberIndices, Graph.mem_members]
  constructor
  · rintro ⟨id, hid, htable⟩
    rw [hx.name_eq htable]
    exact ⟨hid, Graph.mem_digraph.1 (hx.mem_ids htable)⟩
  · rintro ⟨hid, -⟩
    exact ⟨_, hid, hx.table_name hj⟩

/-- The nodes of the contracted graph are entered under the names of the members. -/
theorem Represents.mem_map_name_members (hx : x.Represents g.digraph) :
    v ∈ (x.inOrder (x.memberIndices ids).toList).map x.name ↔ v ∈ g.members ids := by
  simp only [List.mem_map, mem_inOrder, Std.HashSet.mem_toList]
  constructor
  · rintro ⟨j, hj, rfl⟩
    exact (hx.mem_memberIndices_iff (hx.used_of_mem_memberIndices hj)).1 hj
  · intro hv
    obtain ⟨j, -, hj, rfl⟩ := hx.exists_index (Graph.mem_members.1 hv).2
    exact ⟨j, (hx.mem_memberIndices_iff hj).2 hv, rfl⟩

/-- Contraction in an arena has an answer, which holds the contracted graph. -/
theorem Represents.exists_contract (hA : A.Lawful) (hx : x.Represents g.digraph) (ids : List NodeId) :
    ∃ y, x.contract ids = some y ∧ y.Represents (g.contract ids).digraph := by
  have hmember : ∀ i ∈ x.inOrder (x.memberIndices ids).toList, x.Used i ∧ x.name i ∈ g.members ids := by
    intro i hi
    have hi' := Std.HashSet.mem_toList.1 (mem_inOrder.1 hi)
    have hused := hx.used_of_mem_memberIndices hi'
    exact ⟨hused, (hx.mem_memberIndices_iff hused).1 hi'⟩
  obtain ⟨y, hy, pairs, hpairs, hend⟩ := hx.exists_connectRows hA
    (fun j => hx.mem_memberIndices_iff) hmember
    (represents_ofNodes hA fun v => hx.mem_map_name_members) fun v => Graph.contains_ofNodes.2
  have hedges : ∀ u v, (u, v) ∈ pairs ↔ (u, v) ∈ g.bridgeEnds (g.members ids) := by
    intro u v
    rw [hpairs, hx.mem_map_name_members, Graph.mem_bridgeEnds, Graph.mem_reachedMembers, Graph.route_false]
    rfl
  refine ⟨y, hy, ?_⟩
  rwa [Graph.contract_eq_insertEdges, ← Graph.insertEdges_congr hedges]

end Indexed

/-! ## By paths -/

/-- **A contracted graph has edges for paths.** Between two chosen nodes there is an edge exactly if the
graph has a path of at least one step between them whose inner nodes were not chosen, also where they are
one node. It is a dependency if some such path consists of dependencies, and a test edge otherwise. So no
edge stands for paths that all meet a chosen node on the way, and a test edge becomes a dependency where a
path of dependencies leads past the chosen nodes. After any edits that lead to this graph, contraction in an
arena succeeds, and answers every query as the contracted graph does. -/
theorem contract_by_paths (g : Graph) (ids : List NodeId) :
    (∀ u v, (g.contract ids).Edge u v ↔ (u ∈ ids ∧ v ∈ ids) ∧ PathOutside g.Edge ids u v) ∧
    (∀ u v, (g.contract ids).kind? u v = some .dependency ↔
      (u ∈ ids ∧ v ∈ ids) ∧ PathOutside g.Dependency ids u v) ∧
    (∀ u v, (g.contract ids).kind? u v = some .parentTest ↔
      ((u ∈ ids ∧ v ∈ ids) ∧ PathOutside g.Edge ids u v) ∧ ¬ PathOutside g.Dependency ids u v) ∧
    (∀ u v, (∀ inner, (u :: (inner ++ [v])).IsChain g.Edge → ∃ w ∈ inner, w ∈ ids) →
      ¬ (g.contract ids).Edge u v) ∧
    (∀ u v, u ∈ ids → v ∈ ids → g.kind? u v = some .parentTest → PathOutside g.Dependency ids u v →
      (g.contract ids).kind? u v = some .dependency) ∧
    ∀ A : Arena, A.Lawful → ∀ edits : List Edit, (Edit.runAll Graph.apply ∅ edits).2 = g →
      ∃ y, (Edit.runAll Indexed.apply (Indexed.empty : Indexed A) edits).2.contract ids = some y ∧
        y.observe = (g.contract ids).observe := by
  have hedge : ∀ u v, (g.contract ids).Edge u v ↔ (u ∈ ids ∧ v ∈ ids) ∧ PathOutside g.Edge ids u v :=
    fun u v => Graph.contract_edge.trans (Graph.memberBridge_iff fun _ _ => id)
  have hdep : ∀ u v, (g.contract ids).Dependency u v ↔
      (u ∈ ids ∧ v ∈ ids) ∧ PathOutside g.Dependency ids u v :=
    fun u v => Graph.contract_dependency.trans (Graph.memberBridge_iff fun _ _ => Graph.Dependency.edge)
  refine ⟨hedge, hdep, fun u v => ?_, fun u v hmeet he => ?_, fun u v hu hv _ hpath => ?_, ?_⟩
  · rw [Graph.kind?_eq_parentTest, hdep, ← hedge]
    exact and_congr_right fun he => not_congr (and_iff_right ((hedge u v).1 he).1)
  · obtain ⟨-, inner, hout, hchain⟩ := (hedge u v).1 he
    obtain ⟨w, hw, hwids⟩ := hmeet inner hchain
    exact hout w hw hwids
  · exact (hdep u v).2 ⟨⟨hu, hv⟩, hpath⟩
  · rintro A hA edits rfl
    obtain ⟨y, hy, hrep⟩ := (represents_runAll hA edits).exists_contract hA ids
    exact ⟨y, hy, (hrep.shows_observe hA).unique (Graph.shows_observe _)⟩

/-- The test edge from `a` to `c` becomes a dependency over `b`, and `d` has one to itself over `f`. From
`a` to `d` all paths meet `c`, and the path from `c` back to `a` has a test edge on it. -/
theorem contract_by_paths_mixed :
    let edits : List Edit :=
      [.ofEdges [("a", "b"), ("b", "c"), ("c", "d"), ("c", "e"), ("d", "f"), ("f", "d")],
        .addEdge "a" "c" .parentTest, .addEdge "e" "a" .parentTest]
    let g := (Edit.runAll Graph.apply ∅ edits).2
    let ids := ["a", "d", "c", "unknown"]
    slotArena.Lawful ∧ g.kind? "a" "c" = some .parentTest ∧ PathOutside g.Dependency ids "a" "c" ∧
      (g.contract ids).kind? "a" "c" = some .dependency ∧ ¬ (g.contract ids).Edge "a" "d" ∧
      PathOutside g.Dependency ids "d" "d" ∧ ¬ PathOutside g.Dependency ids "c" "a" ∧
      ∃ y, (Edit.runAll Indexed.apply (Indexed.empty : Indexed slotArena) edits).2.contract ids = some y ∧
        y.observe.edges = [("a", "c", .dependency), ("c", "a", .parentTest), ("c", "d", .dependency),
          ("d", "d", .dependency)] := by
  intro edits g ids
  obtain ⟨-, hdep, htest, hshort, hdirect, harena⟩ := contract_by_paths g ids
  have hac : g.kind? "a" "c" = some .parentTest := by decide +kernel
  have hca : (g.contract ids).kind? "c" "a" = some .parentTest := by decide +kernel
  have hpath : PathOutside g.Dependency ids "a" "c" := ((hdep "a" "c").1 (by decide +kernel)).2
  have hloop : PathOutside g.Dependency ids "d" "d" := ((hdep "d" "d").1 (by decide +kernel)).2
  have hedge : ∀ {u w}, g.Edge u w → w ∈ g.successors u := Graph.mem_successors.2
  have ha : g.successors "a" = ["b", "c"] := by decide +kernel
  have hb : g.successors "b" = ["c"] := by decide +kernel
  have hmeet : ∀ inner, ("a" :: (inner ++ ["d"])).IsChain g.Edge → ∃ w ∈ inner, w ∈ ids := by
    intro inner hchain
    cases inner with
    | nil => simpa [ha] using hedge (List.isChain_pair.1 hchain)
    | cons w rest =>
      obtain ⟨hstep, hchain⟩ := List.isChain_cons_cons.1 hchain
      have hw : w = "b" ∨ w = "c" := by simpa [ha] using hedge hstep
      rcases hw with rfl | rfl
      · cases rest with
        | nil => simpa [hb] using hedge (List.isChain_pair.1 hchain)
        | cons w rest =>
          have hw : w = "c" := by simpa [hb] using hedge (List.isChain_cons_cons.1 hchain).1
          exact ⟨w, by simp, by simp [hw, ids]⟩
      · exact ⟨"c", by simp, by simp [ids]⟩
  obtain ⟨y, hy, hview⟩ := harena slotArena slotArena_lawful edits rfl
  refine ⟨slotArena_lawful, hac, hpath, hdirect "a" "c" (by decide) (by decide) hac hpath,
    hshort "a" "d" hmeet, hloop, ((htest "c" "a").1 hca).2, y, hy, ?_⟩
  rw [hview]
  decide +kernel

end Lineage
