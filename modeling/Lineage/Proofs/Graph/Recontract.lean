import Lineage.Proofs.Graph.Contract

/-!
# Contracting twice

A bridge of bridges is a bridge: what the inner contraction leaves out, the outer one leaves out as
well, and a path whose inner nodes were not chosen the second time falls apart into bridges of the
first (`memberBridge_memberBridge`). The argument is about any relation, so it gives the edges and
among them the dependencies, and these two tell graphs on the same nodes apart
(`eq_of_edge_of_dependency`).
-/

namespace Lineage.Graph

/-! ## Bridges of bridges -/

section
variable {r : NodeId → NodeId → Prop} {s t : NodeSet} {u v w : NodeId}

/-- The fewer members there are, the more paths are bridges. -/
theorem Bridge.anti (hts : ∀ a, a ∈ t → a ∈ s) (h : Bridge r s u v) : Bridge r t u v := by
  obtain ⟨w, hw, hv⟩ := h
  have hout : ∀ a b, (a ∉ s ∧ r a b) → a ∉ t ∧ r a b := fun a b hab => ⟨fun ha => hab.1 (hts a ha), hab.2⟩
  exact ⟨w, hw, Relation.ReflTransGen.mono hout _ _ hv⟩

/-- Two bridges that meet in a node that is no member are one. -/
theorem Bridge.trans (h : Bridge r s u w) (hw : w ∉ s) (h' : Bridge r s w v) : Bridge r s u v := by
  obtain ⟨x, hx, hxw⟩ := h
  obtain ⟨y, hy, hyv⟩ := h'
  have hwv : Relation.ReflTransGen (fun a b => a ∉ s ∧ r a b) w v := .head ⟨hw, hy⟩ hyv
  exact ⟨x, hx, hxw.trans hwv⟩

/-- A bridge between members of `t` that is made of bridges between members of `s` is a bridge of single
steps. -/
theorem Bridge.flatten (hts : ∀ a, a ∈ t → a ∈ s) (h : Bridge (MemberBridge r s) t u v) :
    Bridge r t u v := by
  obtain ⟨w, huw, hwv⟩ := h
  have hfirst : Bridge r t u w := huw.2.2.anti hts
  clear huw
  induction hwv with
  | refl => exact hfirst
  | tail _ hstep ih => exact ih.trans hstep.1 (hstep.2.2.2.anti hts)

/-- A bridge over nodes outside `t` falls apart at those of them that are in `s`. -/
theorem Bridge.cut (hv : v ∈ s) (h : Bridge r t u v) :
    ∃ w ∈ s, Bridge r s u w ∧
      Relation.ReflTransGen (fun a b => a ∉ t ∧ MemberBridge r s a b) w v := by
  obtain ⟨x, hux, hxv⟩ := h
  induction hxv using Relation.ReflTransGen.head_induction_on generalizing u with
  | refl => exact ⟨v, hv, ⟨v, hux, .refl⟩, .refl⟩
  | @head x y hxy _ ih =>
    obtain ⟨w, hw, hxw, hrest⟩ := ih hxy.2
    by_cases hx : x ∈ s
    · exact ⟨x, hx, ⟨x, hux, .refl⟩, .head ⟨hxy.1, hx, hw, hxw⟩ hrest⟩
    · exact ⟨w, hw, hxw.cons hux hx, hrest⟩

/-- Where `t` is a part of `s`, bridging over what is not in `s` first makes no difference to bridging
over what is not in `t`. -/
theorem memberBridge_memberBridge (hts : ∀ a, a ∈ t → a ∈ s) :
    MemberBridge (MemberBridge r s) t u v ↔ MemberBridge r t u v := by
  constructor
  · rintro ⟨hu, hv, h⟩
    exact ⟨hu, hv, h.flatten hts⟩
  · rintro ⟨hu, hv, h⟩
    obtain ⟨w, hw, huw, hwv⟩ := h.cut (hts v hv)
    exact ⟨hu, hv, w, ⟨hts u hu, hw, huw⟩, hwv⟩

/-- If all nodes are members, every bridge is a single step. -/
theorem memberBridge_of_forall_mem (hs : ∀ a b, r a b → a ∈ s ∧ b ∈ s) :
    MemberBridge r s u v ↔ r u v := by
  constructor
  · rintro ⟨_, _, w, huw, hwv⟩
    cases hwv using Relation.ReflTransGen.head_induction_on with
    | refl => exact huw
    | head hstep => exact absurd (hs u _ huw).2 hstep.1
  · intro h
    exact ⟨(hs u v h).1, (hs u v h).2, v, h, .refl⟩

end

/-! ## Graphs by their edges -/

variable {g h : Graph} {s t : List NodeId} {u v : NodeId}

/-- Graphs on the same nodes are equal if they have the same edges and the same dependencies. -/
theorem eq_of_edge_of_dependency (hnode : ∀ u, g.contains u = h.contains u)
    (hedge : ∀ u v, g.Edge u v ↔ h.Edge u v) (hdep : ∀ u v, g.Dependency u v ↔ h.Dependency u v) :
    g = h := by
  refine ext_view hnode fun u v => ?_
  have he := hedge u v
  have hd := hdep u v
  unfold Edge Dependency at *
  cases hg : g.kind? u v with
  | none =>
    cases hh : h.kind? u v with
    | none => rfl
    | some kind => simp [hg, hh] at he
  | some kind =>
    cases hh : h.kind? u v with
    | none => simp [hg, hh] at he
    | some kind' => cases kind <;> cases kind' <;> simp_all

/-- Contracted graphs are equal if the same nodes were chosen. -/
theorem contract_congr (h : g.members s = g.members t) : g.contract s = g.contract t := by
  unfold contract
  rw [h]

theorem members_congr (h : ∀ u, g.contains u = true → (u ∈ s ↔ u ∈ t)) : g.members s = g.members t := by
  refine Std.ExtTreeSet.ext_mem fun u => ?_
  rw [mem_members, mem_members]
  exact and_congr_left (h u)

/-- The nodes that a contracted graph has of a second choice were chosen both times. -/
theorem members_contract : (g.contract s).members t = g.members (s ∩ t) := by
  refine Std.ExtTreeSet.ext_mem fun u => ?_
  rw [mem_members, contains_contract, mem_members, mem_members, List.mem_inter_iff]
  tauto

theorem contract_contract_eq : (g.contract s).contract t = g.contract (s ∩ t) := by
  have hedge : (g.contract s).Edge = MemberBridge g.Edge (g.members s) := by
    funext u v; exact propext contract_edge
  have hdep : (g.contract s).Dependency = MemberBridge g.Dependency (g.members s) := by
    funext u v; exact propext contract_dependency
  have hsub : ∀ a, a ∈ g.members (s ∩ t) → a ∈ g.members s := by
    intro a ha
    rw [mem_members, List.mem_inter_iff] at ha
    exact mem_members.2 ⟨ha.1.1, ha.2⟩
  refine eq_of_edge_of_dependency (fun u => ?_) (fun u v => ?_) fun u v => ?_
  · rw [Bool.eq_iff_iff, contains_contract, contains_contract, members_contract]
  · rw [contract_edge, contract_edge, hedge, members_contract, memberBridge_memberBridge hsub]
  · rw [contract_dependency, contract_dependency, hdep, members_contract, memberBridge_memberBridge hsub]

theorem contract_eq_self (h : ∀ u, g.contains u = true → u ∈ s) : g.contract s = g := by
  have hmem : ∀ u v, g.Edge u v → u ∈ g.members s ∧ v ∈ g.members s := fun u v he =>
    ⟨mem_members.2 ⟨h u he.source, he.source⟩, mem_members.2 ⟨h v he.target, he.target⟩⟩
  refine eq_of_edge_of_dependency (fun u => ?_) (fun u v => ?_) fun u v => ?_
  · rw [Bool.eq_iff_iff, contains_contract, mem_members]
    exact ⟨And.right, fun hu => ⟨h u hu, hu⟩⟩
  · rw [contract_edge, memberBridge_of_forall_mem hmem]
  · rw [contract_dependency, memberBridge_of_forall_mem fun a b hab => hmem a b hab.edge]

/-- **Contraction composes.** Contracting to some nodes and then to others is contracting to those that
were chosen both times. So contracting to the same nodes again changes nothing, two contractions can
change places, and contracting to all nodes of a graph gives that graph. -/
theorem contract_contract (g : Graph) (s t : List NodeId) :
    (g.contract s).contract t = g.contract (s ∩ t) ∧
    (g.contract s).contract s = g.contract s ∧
    (g.contract s).contract t = (g.contract t).contract s ∧
    g.contract g.nodes = g := by
  refine ⟨contract_contract_eq, ?_, ?_, contract_eq_self fun u hu => mem_nodes.2 hu⟩
  · rw [contract_contract_eq]
    refine contract_congr (members_congr fun u _ => ?_)
    rw [List.mem_inter_iff, and_self]
  · rw [contract_contract_eq, contract_contract_eq]
    refine contract_congr (members_congr fun u _ => ?_)
    rw [List.mem_inter_iff, List.mem_inter_iff, and_comm]

end Lineage.Graph
