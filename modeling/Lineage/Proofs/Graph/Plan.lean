import Lineage.Proofs.Graph.Batches
import Lineage.Proofs.Graph.Contract
import Mathlib.Data.Finset.Card
import Mathlib.Order.Bounds.Defs

/-!
# The plan of a selection

The batches of a contracted graph, told from the graph itself: a chosen node comes behind as many
batches as there are other chosen nodes on the walk to it that meets most of them
(`contract_batches_spec`). The members that a path meets follow one another over bridges
(`PathTo.filter_mem`), and a walk over bridges can be filled in to a path that meets no further member
(`exists_pathTo_of_walk`), so both have the same number of members. Where no cycle goes through a
member, a path meets none twice (`PathTo.nodup_filter_mem`), and visits can be counted as nodes.
-/

namespace Lineage.Graph

/-! ## Paths as lists -/

section
variable {r : NodeId → NodeId → Prop} {s : NodeSet} {path rest : List NodeId} {n : Nat}
  {u v w : NodeId}

/-- The nodes of a walk in order, up to its end `v`. -/
inductive PathTo (r : NodeId → NodeId → Prop) (v : NodeId) : List NodeId → Prop
  | single : PathTo r v [v]
  | cons {u w : NodeId} {rest : List NodeId} :
      r u w → PathTo r v (w :: rest) → PathTo r v (u :: w :: rest)

theorem PathTo.end_mem (h : PathTo r v path) : v ∈ path := by
  induction h with
  | single => exact List.mem_singleton_self v
  | cons _ _ ih => exact List.mem_cons_of_mem _ ih

theorem PathTo.isChain (h : PathTo r v path) : path.IsChain r := by
  induction h with
  | single => exact .singleton v
  | cons hr _ ih => exact .cons_cons hr ih

/-- A path has one node more than its walk has steps. -/
theorem PathTo.exists_walk (h : PathTo r v path) :
    ∃ u n, path.head? = some u ∧ path.length = n + 1 ∧ Walk r n u v := by
  induction h with
  | single => exact ⟨v, 0, rfl, rfl, .nil v⟩
  | @cons u w rest hr _ ih =>
    obtain ⟨x, n, hx, hlen, hwalk⟩ := ih
    obtain rfl : w = x := by simpa using hx
    exact ⟨u, n + 1, rfl, by rw [List.length_cons, hlen], .cons hr hwalk⟩

/-- What holds of both ends of every step holds of all nodes of a path to such a node. -/
theorem PathTo.forall_mem {p : NodeId → Prop} (hp : ∀ a b, r a b → p a) (hv : p v)
    (h : PathTo r v path) : ∀ u ∈ path, p u := by
  induction h with
  | single =>
    intro u hu
    rwa [List.mem_singleton.1 hu]
  | cons hr _ ih =>
    intro u hu
    rcases List.mem_cons.1 hu with rfl | hu
    · exact hp _ _ hr
    · exact ih u hu

/-! ## The members on a path -/

/-- A step onto a path leads over a bridge to the first member on it. -/
theorem PathTo.bridge_first (h : PathTo r v path) (hw : path.head? = some w) (hr : r u w)
    (hx : (path.filter (· ∈ s)).head? = some x) : Bridge r s u x := by
  induction h generalizing u w with
  | single =>
    obtain rfl : v = w := by simpa using hw
    by_cases hv : v ∈ s
    · obtain rfl : v = x := by simpa [hv] using hx
      exact ⟨v, hr, .refl⟩
    · simp [hv] at hx
  | @cons a b rest hab _ ih =>
    obtain rfl : a = w := by simpa using hw
    by_cases ha : a ∈ s
    · obtain rfl : a = x := by simpa [ha] using hx
      exact ⟨a, hr, .refl⟩
    · rw [List.filter_cons_of_neg (by simpa using ha)] at hx
      exact (ih rfl hab hx).cons hr ha

/-- The members on a path to a member follow one another over bridges. -/
theorem PathTo.filter_mem (hv : v ∈ s) (h : PathTo r v path) :
    PathTo (MemberBridge r s) v (path.filter (· ∈ s)) := by
  induction h with
  | single =>
    rw [List.filter_cons_of_pos (by simpa using hv), List.filter_nil]
    exact .single
  | @cons u w rest hr hrest ih =>
    by_cases hu : u ∈ s
    · rw [List.filter_cons_of_pos (by simpa using hu)]
      cases hf : (w :: rest).filter (· ∈ s) with
      | nil =>
        rw [hf] at ih
        cases ih
      | cons x tail =>
        rw [hf] at ih
        have hx : x ∈ s := by
          have hmem : x ∈ (w :: rest).filter (· ∈ s) := by rw [hf]; exact List.mem_cons_self
          simpa using (List.mem_filter.1 hmem).2
        have hb : Bridge r s u x := hrest.bridge_first rfl hr (by rw [hf]; rfl)
        exact .cons ⟨hu, hx, hb⟩ ih
    · rwa [List.filter_cons_of_neg (by simpa using hu)]

/-- A bridge onto a path is filled in with nodes that are no members. -/
theorem Bridge.exists_pathTo (hb : Bridge r s u w) (h : PathTo r v (w :: rest)) :
    ∃ inner : List NodeId, (∀ x ∈ inner, x ∉ s) ∧ PathTo r v (u :: (inner ++ w :: rest)) := by
  obtain ⟨x, hux, hxw⟩ := hb
  induction hxw using Relation.ReflTransGen.head_induction_on generalizing u with
  | refl => exact ⟨[], by simp, .cons hux h⟩
  | @head x y hxy _ ih =>
    obtain ⟨inner, hinner, hpath⟩ := ih hxy.2
    refine ⟨x :: inner, ?_, .cons hux hpath⟩
    intro z hz
    rcases List.mem_cons.1 hz with rfl | hz
    · exact hxy.1
    · exact hinner z hz

/-- A walk over bridges is filled in to a path that meets the same members. -/
theorem exists_pathTo_of_walk (hv : v ∈ s) (h : Walk (MemberBridge r s) n u v) :
    ∃ rest : List NodeId, PathTo r v (u :: rest) ∧ ((u :: rest).filter (· ∈ s)).length = n + 1 := by
  induction h with
  | nil u =>
    refine ⟨[], .single, ?_⟩
    rw [List.filter_cons_of_pos (by simpa using hv)]
    rfl
  | @cons n u w v hr _ ih =>
    obtain ⟨rest, hrest, hlen⟩ := ih hv
    obtain ⟨inner, hinner, hpath⟩ := hr.2.2.exists_pathTo hrest
    refine ⟨inner ++ w :: rest, hpath, ?_⟩
    have hnone : inner.filter (· ∈ s) = [] := by
      rw [List.filter_eq_nil_iff]
      intro x hx
      simpa using hinner x hx
    rw [List.filter_cons_of_pos (by simpa using hr.1), List.filter_append, hnone, List.nil_append,
      List.length_cons, hlen]

/-- A path meets a member twice only where a cycle goes through it. -/
theorem PathTo.nodup_filter_mem (hs : ∀ x ∈ s, ¬ Relation.TransGen r x x) (hv : v ∈ s)
    (h : PathTo r v path) : (path.filter (· ∈ s)).Nodup := by
  have hchain : (path.filter (· ∈ s)).IsChain (Relation.TransGen (MemberBridge r s)) :=
    (h.filter_mem hv).isChain.imp fun _ _ => Relation.TransGen.single
  refine (List.isChain_iff_pairwise.1 hchain).imp ?_
  rintro a b hab rfl
  obtain ⟨ha, -, hcycle⟩ := transGen_memberBridge.1 hab
  exact hs a ha hcycle

end

/-! ## Levels -/

variable {g : Graph} {ids path : List NodeId} {bs : List (List NodeId)} {k : Nat} {u v : NodeId}

/-- The chosen nodes on a path, apart from its end. -/
def othersOn (ids : List NodeId) (v : NodeId) (path : List NodeId) : Finset NodeId :=
  path.toFinset.filter fun u => u ∈ ids ∧ u ≠ v

/-- Where no cycle goes through a chosen node, a path meets its end and the others once each. -/
theorem card_othersOn (hids : ∀ x ∈ g.members ids, ¬ Relation.TransGen g.Edge x x)
    (hv : v ∈ g.members ids) (h : PathTo g.Edge v path) :
    (path.filter (· ∈ g.members ids)).length = (othersOn ids v path).card + 1 := by
  have hknown : ∀ u ∈ path, g.contains u = true :=
    h.forall_mem (fun a b => Edge.source) (mem_members.1 hv).2
  have hmem : v ∈ (path.filter (· ∈ g.members ids)).toFinset := by
    rw [List.mem_toFinset]
    exact (h.filter_mem hv).end_mem
  have hothers : othersOn ids v path = (path.filter (· ∈ g.members ids)).toFinset.erase v := by
    ext u
    simp only [othersOn, Finset.mem_filter, List.mem_toFinset, Finset.mem_erase, List.mem_filter,
      decide_eq_true_eq, mem_members]
    constructor
    · rintro ⟨hu, hids, hne⟩
      exact ⟨hne, hu, hids, hknown u hu⟩
    · rintro ⟨hne, hu, hids, -⟩
      exact ⟨hu, hids, hne⟩
  rw [hothers, Finset.card_erase_add_one hmem, List.toFinset_card_of_nodup (h.nodup_filter_mem hids hv)]

/-- Over bridges, the longest walk to a chosen node has as many steps as a path of the graph can meet
other chosen nodes. -/
theorem isGreatest_othersOn (hids : ∀ x ∈ g.members ids, ¬ Relation.TransGen g.Edge x x)
    (hv : v ∈ g.members ids) (hd : (g.contract ids).Depth v k) :
    IsGreatest {n | ∃ path, PathTo g.Edge v path ∧ (othersOn ids v path).card = n} k := by
  have hedge : (g.contract ids).Edge = MemberBridge g.Edge (g.members ids) := by
    funext u v; exact propext contract_edge
  unfold Depth at hd
  rw [hedge] at hd
  obtain ⟨⟨u, hwalk⟩, hmax⟩ := hd
  constructor
  · obtain ⟨rest, hpath, hlen⟩ := exists_pathTo_of_walk hv hwalk
    refine ⟨u :: rest, hpath, ?_⟩
    have hcard := card_othersOn hids hv hpath
    omega
  · rintro n ⟨path, hpath, rfl⟩
    obtain ⟨u, n, -, hlen, hwalk⟩ := (hpath.filter_mem hv).exists_walk
    have hcard := card_othersOn hids hv hpath
    have hn := hmax n u hwalk
    omega

/-! ## Plans -/

/-- What leads to a node over any number of edges comes in an earlier batch. -/
theorem Schedule.earlier_of_transGen (hs : Schedule g bs) (h : Relation.TransGen g.Edge u v)
    {b : List NodeId} (hb : bs[k]? = some b) (hv : v ∈ b) :
    ∃ j < k, ∃ b', bs[j]? = some b' ∧ u ∈ b' := by
  induction h generalizing k b with
  | single he => exact hs.earlier _ _ he k b hb hv
  | tail _ he ih =>
    obtain ⟨j, hj, b', hb', hmem⟩ := hs.earlier _ _ he k b hb hv
    obtain ⟨i, hi, b'', hb'', hu⟩ := ih hb' hmem
    exact ⟨i, hi.trans hj, b'', hb'', hu⟩

/-- Each node behind the first batch has an edge from a node of the batch before its own. -/
theorem Schedule.exists_edge (hs : Schedule g bs) {b : List NodeId} (hb : bs[k + 1]? = some b)
    (hv : v ∈ b) : ∃ u b', bs[k]? = some b' ∧ u ∈ b' ∧ g.Edge u v := by
  obtain ⟨-, ⟨w, hwalk⟩, hmax⟩ := (hs.level (k + 1) v).1 ⟨b, hb, hv⟩
  obtain ⟨u, hwu, he⟩ := walk_succ_iff_last.1 hwalk
  have hd : g.Depth u k := by
    refine ⟨⟨w, hwu⟩, fun n x hx => ?_⟩
    have hn := hmax (n + 1) x (hx.snoc he)
    omega
  obtain ⟨b', hb', hu⟩ := (hs.level k u).2 ⟨he.source, hd⟩
  exact ⟨u, b', hb', hu, he⟩

/-- Batches that run the chosen nodes of a graph in its order: each once, behind every chosen node that
leads to it, and no later than these demand. -/
structure Plan (g : Graph) (ids : List NodeId) (bs : List (List NodeId)) : Prop where
  complete : ∀ v, v ∈ bs.flatten ↔ v ∈ ids ∧ g.contains v = true
  once : bs.flatten.Nodup
  /-- The batch of a node is the largest number of other chosen nodes on a path to it. -/
  level : ∀ (k : Nat) (b : List NodeId) (v : NodeId), bs[k]? = some b → v ∈ b →
    IsGreatest {n | ∃ path, PathTo g.Edge v path ∧ (othersOn ids v path).card = n} k
  respects : ∀ u v, u ∈ ids → v ∈ ids → Relation.TransGen g.Edge u v →
    ∀ (k : Nat) (b : List NodeId), bs[k]? = some b → v ∈ b → ∃ j < k, ∃ b', bs[j]? = some b' ∧ u ∈ b'
  grounded : ∀ (k : Nat) (b : List NodeId) (v : NodeId), bs[k + 1]? = some b → v ∈ b →
    ∃ u b', bs[k]? = some b' ∧ u ∈ b' ∧ Relation.TransGen g.Edge u v

theorem Schedule.plan (hids : ¬ ∃ v ∈ ids, Relation.TransGen g.Edge v v)
    (hs : Schedule (g.contract ids) bs) : Plan g ids bs := by
  obtain ⟨hnode, -, hreach, -⟩ := contract_preserves_reachability g ids
  have hfree : ∀ x ∈ g.members ids, ¬ Relation.TransGen g.Edge x x := by
    intro x hx hc
    exact hids ⟨x, (mem_members.1 hx).1, hc⟩
  refine ⟨fun v => ?_, hs.once, fun k b v hb hv => ?_, fun u v hu hv huv k b hb hvb => ?_,
    fun k b v hb hv => ?_⟩
  · rw [hs.complete, hnode]
  · obtain ⟨hmem, hd⟩ := (hs.level k v).1 ⟨b, hb, hv⟩
    exact isGreatest_othersOn hfree (contains_contract.1 hmem) hd
  · exact hs.earlier_of_transGen ((hreach u v).2 ⟨⟨hu, hv⟩, huv⟩) hb hvb
  · obtain ⟨u, b', hb', hu, he⟩ := hs.exists_edge hb hv
    exact ⟨u, b', hb', hu, ((hreach u v).1 (.single he)).2⟩

/-- **The plan of a selection.** The graph contracted to the chosen nodes has batches exactly if no cycle
goes through a chosen node. They list each chosen node once, and put it behind as many batches as there
are other chosen nodes on a walk to it that meets most of them: so every order of the graph is kept,
also where it comes about through nodes that were not chosen, and none is added. -/
theorem contract_batches_spec (g : Graph) (ids : List NodeId) :
    ((∃ bs, (g.contract ids).batches = .ok bs) ↔ ¬ ∃ v ∈ ids, Relation.TransGen g.Edge v v) ∧
    match (g.contract ids).batches with
    | .ok bs => Plan g ids bs
    | .error e => e = .cycle ((g.contract ids).findCycle.getD []) ∧
        ∃ v ∈ ids, Relation.TransGen g.Edge v v := by
  have hacyclic := (contract_preserves_reachability g ids).2.2.2
  refine ⟨exists_batches_iff.trans hacyclic, ?_⟩
  rcases batches_cases (g.contract ids) with ⟨hg, bs, hbs, hs⟩ | ⟨hg, hbs⟩
  · rw [hbs]
    exact hs.plan (hacyclic.1 hg)
  · rw [hbs]
    exact ⟨rfl, not_not.1 fun h => hg (hacyclic.2 h)⟩

end Lineage.Graph
