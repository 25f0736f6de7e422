import Lineage.Proofs.Graph.Build

/-!
# Contraction keeps reachability

A path between two members falls apart at the members that it meets, into bridges: paths whose inner
nodes are no members (`exists_bridge`). A contracted graph has one edge for each bridge
(`contract_edge`, `contract_dependency`), so it leads from one member to another exactly where the
graph does. The argument is about any relation and serves dependencies and edges of all kinds alike.
-/

namespace Lineage.Graph

/-! ## Bridges -/

section
variable {r q : NodeId → NodeId → Prop} {s : NodeSet} {u v : NodeId}

/-- A path of at least one step from `u` to `v` whose inner nodes are not in `s`. -/
def Bridge (r : NodeId → NodeId → Prop) (s : NodeSet) (u v : NodeId) : Prop :=
  ∃ w, r u w ∧ Relation.ReflTransGen (fun a b => a ∉ s ∧ r a b) w v

/-- A bridge between two members. -/
def MemberBridge (r : NodeId → NodeId → Prop) (s : NodeSet) (u v : NodeId) : Prop :=
  u ∈ s ∧ v ∈ s ∧ Bridge r s u v

theorem Bridge.mono (h : ∀ u v, r u v → q u v) (hb : Bridge r s u v) : Bridge q s u v := by
  obtain ⟨w, hw, hv⟩ := hb
  exact ⟨w, h _ _ hw, Relation.ReflTransGen.mono (fun a b hab => ⟨hab.1, h _ _ hab.2⟩) _ _ hv⟩

theorem Bridge.transGen (h : Bridge r s u v) : Relation.TransGen r u v := by
  obtain ⟨w, hw, hv⟩ := h
  exact .head' hw (Relation.ReflTransGen.mono (fun a b hab => hab.2) _ _ hv)

theorem Bridge.cons {w : NodeId} (hr : r u w) (hw : w ∉ s) (h : Bridge r s w v) : Bridge r s u v := by
  obtain ⟨x, hx, hv⟩ := h
  exact ⟨w, hr, .head ⟨hw, hx⟩ hv⟩

/-- A path to a member begins with a bridge to some member and goes on over bridges. -/
theorem exists_bridge (hv : v ∈ s) (h : Relation.TransGen r u v) :
    ∃ w ∈ s, Bridge r s u w ∧ Relation.ReflTransGen (MemberBridge r s) w v := by
  induction h using Relation.TransGen.head_induction_on with
  | single hr => exact ⟨v, hv, ⟨v, hr, .refl⟩, .refl⟩
  | @head a c hr _ ih =>
    obtain ⟨w, hw, hb, hrest⟩ := ih
    by_cases hc : c ∈ s
    · exact ⟨c, hc, ⟨c, hr, .refl⟩, .head ⟨hc, hw, hb⟩ hrest⟩
    · exact ⟨w, hw, hb.cons hr hc, hrest⟩

theorem transGen_memberBridge :
    Relation.TransGen (MemberBridge r s) u v ↔ u ∈ s ∧ v ∈ s ∧ Relation.TransGen r u v := by
  constructor
  · intro h
    induction h with
    | single hb => exact ⟨hb.1, hb.2.1, hb.2.2.transGen⟩
    | tail _ hb ih => exact ⟨ih.1, hb.2.1, ih.2.2.trans hb.2.2.transGen⟩
  · rintro ⟨hu, hv, h⟩
    obtain ⟨w, hw, hb, hrest⟩ := exists_bridge hv h
    exact .head' ⟨hu, hw, hb⟩ hrest

end

/-! ## The search for members -/

variable {g : Graph} {s : NodeSet} {ids : List NodeId} {only : Bool} {u v : NodeId}

/-- A step of the search for members. -/
def Route (g : Graph) (only : Bool) (u v : NodeId) : Prop := v ∈ g.targets only u

theorem route_true : g.Route true = g.Dependency := by
  funext u v; exact propext along_forward

theorem route_false : g.Route false = g.Edge := by
  funext u v; exact propext mem_successors

theorem Route.target (h : g.Route only u v) : g.contains v = true := by
  cases only with
  | true => rw [route_true] at h; exact h.edge.target
  | false => rw [route_false] at h; exact h.target

/-- The members that the search reaches are those at the end of a bridge. -/
theorem mem_reachedMembers :
    v ∈ g.reachedMembers s only u ↔ v ∈ s ∧ Bridge (g.Route only) s u v := by
  unfold reachedMembers
  rw [mem_filter, Std.ExtTreeSet.contains_iff_mem, and_comm, mem_spread]
  · refine and_congr_right fun _ => ?_
    have honward : (fun a b => b ∈ if s.contains a = true then [] else g.targets only a) =
        fun a b => a ∉ s ∧ g.Route only a b := by
      funext a b
      by_cases ha : a ∈ s <;> simp [ha, Route, Std.ExtTreeSet.contains_iff_mem]
    rw [mem_ofList, honward]
    constructor
    · rintro (hv | ⟨w, hw, k, _, hk⟩)
      · exact ⟨v, hv, .refl⟩
      · exact ⟨w, hw, reflTransGen_iff_walk.2 ⟨k, hk⟩⟩
    · rintro ⟨w, hw, hv⟩
      obtain ⟨n, hn⟩ := reflTransGen_iff_walk.1 hv
      obtain ⟨k, _, hcard, hk⟩ := hn.exists_short (s := g.nodeFinset)
        (fun _ _ _ h => mem_nodeFinset.2 h.2.target) (mem_nodeFinset.2 (Route.target hw))
      rw [card_nodeFinset] at hcard
      exact .inr ⟨w, hw, k, by omega, hk⟩
  · exact ⟨fun w hw => mem_ofList.2 hw, fun w hw _ _ => .inl (mem_ofList.1 hw)⟩

/-! ## The contracted graph -/

/-- The kind of an edge between two members, where there is one. -/
def bridgeKind (g : Graph) (s : NodeSet) (u v : NodeId) : EdgeKind :=
  if (g.reachedMembers s true u).contains v then .dependency else .parentTest

/-- The ends of all edges of a contracted graph. -/
def bridgeEnds (g : Graph) (s : NodeSet) : List (NodeId × NodeId) :=
  s.toList.flatMap fun u => (g.reachedMembers s false u).toList.map (u, ·)

theorem bridgeKind_eq_dependency :
    g.bridgeKind s u v = .dependency ↔ v ∈ s ∧ Bridge g.Dependency s u v := by
  unfold bridgeKind
  rw [← route_true, ← mem_reachedMembers, ← Std.ExtTreeSet.contains_iff_mem]
  split <;> simp_all

theorem contract_eq_insertEdges :
    g.contract ids = (ofNodes (g.members ids)).insertEdges (g.bridgeKind (g.members ids))
      (g.bridgeEnds (g.members ids)) := by
  unfold contract insertEdges bridgeEnds contractedRow
  simp only [List.foldl_flatMap, List.foldl_map]
  rfl

theorem mem_bridgeEnds : (u, v) ∈ g.bridgeEnds s ↔ MemberBridge g.Edge s u v := by
  unfold bridgeEnds MemberBridge
  simp only [List.mem_flatMap, List.mem_map, Prod.mk.injEq, Std.ExtTreeSet.mem_toList,
    mem_reachedMembers, route_false]
  constructor
  · rintro ⟨a, ha, b, ⟨hb, hab⟩, rfl, rfl⟩
    exact ⟨ha, hb, hab⟩
  · rintro ⟨hu, hv, hb⟩
    exact ⟨u, hu, v, ⟨hv, hb⟩, rfl, rfl⟩

theorem contains_contract : (g.contract ids).contains u = true ↔ u ∈ g.members ids := by
  rw [contract_eq_insertEdges, contains_insertEdges, contains_ofNodes]

/-- Between two members there is an edge for each bridge, and a dependency where some bridge consists
of dependencies. -/
theorem kind?_contract {kind : EdgeKind} :
    (g.contract ids).kind? u v = some kind ↔
      MemberBridge g.Edge (g.members ids) u v ∧ g.bridgeKind (g.members ids) u v = kind := by
  rw [contract_eq_insertEdges, kind?_insertEdges, kind?_ofNodes, ← mem_bridgeEnds]
  have hends : (u, v) ∈ g.bridgeEnds (g.members ids) →
      (ofNodes (g.members ids)).contains u = true ∧ (ofNodes (g.members ids)).contains v = true := by
    intro hp
    have hb := mem_bridgeEnds.1 hp
    exact ⟨contains_ofNodes.2 hb.1, contains_ofNodes.2 hb.2.1⟩
  split
  · rename_i hp
    simp [hp.1]
  · rename_i hp
    have hno : (u, v) ∉ g.bridgeEnds (g.members ids) := fun hmem => hp ⟨hmem, hends hmem⟩
    simp [hno]

theorem contract_edge : (g.contract ids).Edge u v ↔ MemberBridge g.Edge (g.members ids) u v := by
  constructor
  · rintro ⟨kind, h⟩; exact (kind?_contract.1 h).1
  · intro h; exact ⟨_, kind?_contract.2 ⟨h, rfl⟩⟩

theorem contract_dependency :
    (g.contract ids).Dependency u v ↔ MemberBridge g.Dependency (g.members ids) u v := by
  unfold Dependency
  rw [kind?_contract, bridgeKind_eq_dependency]
  constructor
  · rintro ⟨⟨hu, hv, _⟩, _, hb⟩
    exact ⟨hu, hv, hb⟩
  · rintro ⟨hu, hv, hb⟩
    exact ⟨⟨hu, hv, hb.mono fun _ _ => Dependency.edge⟩, hv, hb⟩

/-- **Contraction keeps reachability.** The contracted graph holds the chosen nodes, and among these one
leads to another, over dependencies or over edges of any kind, exactly where it does in the graph. So
the contracted graph is acyclic exactly when no cycle of the graph meets a chosen node. -/
theorem contract_preserves_reachability (g : Graph) (ids : List NodeId) :
    (∀ u, (g.contract ids).contains u = true ↔ u ∈ ids ∧ g.contains u = true) ∧
    (∀ u v, Relation.TransGen (g.contract ids).Dependency u v ↔
      (u ∈ ids ∧ v ∈ ids) ∧ Relation.TransGen g.Dependency u v) ∧
    (∀ u v, Relation.TransGen (g.contract ids).Edge u v ↔
      (u ∈ ids ∧ v ∈ ids) ∧ Relation.TransGen g.Edge u v) ∧
    ((g.contract ids).Acyclic ↔ ¬ ∃ v ∈ ids, Relation.TransGen g.Edge v v) := by
  have hdep : (g.contract ids).Dependency = MemberBridge g.Dependency (g.members ids) := by
    funext u v; exact propext contract_dependency
  have hedge : (g.contract ids).Edge = MemberBridge g.Edge (g.members ids) := by
    funext u v; exact propext contract_edge
  have hends : ∀ {u v}, Relation.TransGen g.Edge u v →
      (u ∈ g.members ids ∧ v ∈ g.members ids ↔ u ∈ ids ∧ v ∈ ids) := by
    intro u v h
    obtain ⟨hu, hv⟩ := contains_of_transGen h
    simp [mem_members, hu, hv]
  refine ⟨fun u => contains_contract.trans mem_members, fun u v => ?_, fun u v => ?_, ?_⟩
  · rw [hdep, transGen_memberBridge, ← and_assoc]
    exact and_congr_left fun h => hends (Relation.TransGen.mono (fun _ _ => Dependency.edge) _ _ h)
  · rw [hedge, transGen_memberBridge, ← and_assoc]
    exact and_congr_left hends
  · unfold Acyclic
    simp only [hedge, transGen_memberBridge]
    constructor
    · rintro h ⟨v, hv, hc⟩
      have hm := (hends hc).2 ⟨hv, hv⟩
      exact h v ⟨hm.1, hm.2, hc⟩
    · rintro h v ⟨hv, _, hc⟩
      exact h ⟨v, (mem_members.1 hv).1, hc⟩

end Lineage.Graph
