import Lineage.Graph.Batches
import Lineage.Proofs.Graph.Cycle
import Mathlib.Data.String.Basic

/-!
# Batches are levels

The batch of a node is the length of the longest walk that ends at it (`Schedule`). `After` says where
a countdown stands after `k` rounds: the nodes emitted are those to which every walk has fewer than
`k` steps, and each count is the number of edges from nodes not yet emitted. One round keeps it
(`After.round`), and a countdown that has come to rest has emitted every node exactly when the graph
is acyclic (`After.all_emitted_iff`).
-/

namespace Lineage.Graph

variable {g : Graph} {u v : NodeId} {k n : Nat}

/-! ## Levels -/

/-- The longest walk that ends at `v`, over edges of any kind, has `k` steps. -/
def Depth (g : Graph) (v : NodeId) (k : Nat) : Prop :=
  (∃ u, Walk g.Edge k u v) ∧ ∀ n u, Walk g.Edge n u v → n ≤ k

/-- Every walk that ends at `v` has fewer than `k` steps. -/
def Above (g : Graph) (k : Nat) (v : NodeId) : Prop := ∀ n u, Walk g.Edge n u v → n < k

theorem Depth.unique (h : g.Depth v k) (h' : g.Depth v n) : k = n := by
  obtain ⟨⟨u, hu⟩, hle⟩ := h
  obtain ⟨⟨u', hu'⟩, hle'⟩ := h'
  exact Nat.le_antisymm (hle' k u hu) (hle n u' hu')

/-- A longest walk meets no node twice. -/
theorem Depth.lt_nodeCount (h : g.Depth v k) (hv : g.contains v = true) : k < g.nodeCount := by
  by_contra hk
  obtain ⟨⟨u, hu⟩, hle⟩ := h
  have hsource : g.contains u = true := by
    cases hu with
    | nil => exact hv
    | cons he _ => exact he.source
  obtain ⟨a, b, c, w, hsum, ha, hb, hc⟩ := hu.exists_loop (s := g.nodeFinset)
    (fun _ _ _ he => mem_nodeFinset.2 he.target) (mem_nodeFinset.2 hsource)
    (by rw [card_nodeFinset]; omega)
  -- going round the loop twice makes the walk longer
  have := hle _ u ((ha.append hb).append (hb.append hc))
  omega

theorem above_succ_iff : g.Above (k + 1) v ↔ g.Above k v ∨ g.Depth v k := by
  constructor
  · intro h
    by_cases hk : g.Above k v
    · exact .inl hk
    · unfold Above at hk
      push Not at hk
      obtain ⟨n, u, hw, hn⟩ := hk
      have hlt := h n u hw
      obtain rfl : n = k := by omega
      exact .inr ⟨⟨u, hw⟩, fun m w hm => Nat.lt_succ_iff.1 (h m w hm)⟩
  · rintro (h | h) n u hw
    · have := h n u hw; omega
    · have := h.2 n u hw; omega

theorem Depth.not_above (h : g.Depth v k) : ¬ g.Above k v := by
  intro ha
  obtain ⟨u, hu⟩ := h.1
  exact absurd (ha k u hu) (Nat.lt_irrefl k)

/-- A node is at depth `k` if a walk of `k` steps ends at it and all its predecessors are above. -/
theorem depth_iff : g.Depth v k ↔ ¬ g.Above k v ∧ ∀ u, g.Edge u v → g.Above k u := by
  constructor
  · refine fun h => ⟨h.not_above, fun u he n w hw => ?_⟩
    exact h.2 (n + 1) w (hw.snoc he)
  · rintro ⟨hv, hpred⟩
    have hle : ∀ n u, Walk g.Edge n u v → n ≤ k := by
      intro n u hw
      cases n with
      | zero => exact Nat.zero_le k
      | succ n =>
        obtain ⟨x, hx, he⟩ := walk_succ_iff_last.1 hw
        exact hpred x he n u hx
    rcases above_succ_iff.1 fun n u hw => Nat.lt_succ_iff.2 (hle n u hw) with h | h
    · exact absurd h hv
    · exact h

/-! ## Sorted batches -/

theorem pairwise_mergeSort_key {α β : Type} [LinearOrder β] (key : α → β) (l : List α) :
    (l.mergeSort fun a b => key a ≤ key b).Pairwise fun a b => key a ≤ key b := by
  refine (List.pairwise_mergeSort (fun a b c hab hbc => ?_) (fun a b => ?_) l).imp of_decide_eq_true
  · simp only [decide_eq_true_eq] at *
    exact le_trans hab hbc
  · simp only [Bool.or_eq_true, decide_eq_true_eq]
    exact le_total (key a) (key b)

theorem pairwise_lt_mergeSort {l : List NodeId} (h : l.Nodup) :
    (l.mergeSort (· ≤ ·)).Pairwise (· < ·) := by
  have hle : (l.mergeSort (· ≤ ·)).Pairwise (· ≤ ·) := pairwise_mergeSort_key id l
  have hne : (l.mergeSort (· ≤ ·)).Pairwise (· ≠ ·) := (List.mergeSort_perm l _).nodup_iff.2 h
  exact hle.imp₂ (fun a b hab hne => lt_of_le_of_ne hab hne) hne

/-! ## Releases -/

namespace Countdown

variable {counts : Std.ExtTreeMap NodeId Nat compare} {ready targets : List NodeId} {c : Countdown}

theorem getElem?_release (w : NodeId) :
    (release (counts, ready) w).1[v]? = if w = v then counts[v]?.map (· - 1) else counts[v]? := by
  unfold release
  by_cases hw : w = v
  · subst hw
    cases h : counts[w]? with
    | none => simp [h]
    | some n => simp
  · cases h : counts[w]? with
    | none => simp [hw]
    | some n => simp [hw, Std.ExtTreeMap.getElem?_insert]

theorem snd_release (w : NodeId) :
    (release (counts, ready) w).2 = if counts[w]? = some 1 then ready ++ [w] else ready := by
  unfold release
  cases counts[w]? with
  | none => simp
  | some n => simp

/-- Each release of a node lowers its count by one. -/
theorem getElem?_releases :
    (targets.foldl release (counts, ready)).1[v]? = counts[v]?.map (· - targets.count v) := by
  induction targets generalizing counts ready with
  | nil => simp only [List.foldl_nil, List.count_nil, Nat.sub_zero, Option.map_id']
  | cons w rest ih =>
    rw [List.foldl_cons, ← Prod.mk.eta (p := release (counts, ready) w), ih, getElem?_release,
      List.count_cons]
    cases hc : counts[v]? with
    | none => simp
    | some n =>
      by_cases hw : w = v
      · simp [hw, Nat.sub_sub, Nat.add_comm]
      · simp [hw]

/-- A node that is released no more often than its count says has a count for every release to come. -/
theorem count_le_of_release {w : NodeId} (h : ∀ n, counts[v]? = some n → (w :: targets).count v ≤ n) :
    ∀ n, (release (counts, ready) w).1[v]? = some n → targets.count v ≤ n := by
  intro n hn
  rw [getElem?_release] at hn
  by_cases hw : w = v
  · rw [if_pos hw] at hn
    obtain ⟨m, hm, rfl⟩ := Option.map_eq_some_iff.1 hn
    have := h m hm
    rw [List.count_cons, if_pos (by simp [hw])] at this
    omega
  · rw [if_neg hw] at hn
    have := h n hn
    rwa [List.count_cons, if_neg (by simp [hw]), Nat.add_zero] at this

/-- The nodes that releases make ready are those released as often as their counts say. -/
theorem mem_ready_releases (h : ∀ n, counts[v]? = some n → targets.count v ≤ n) :
    v ∈ (targets.foldl release (counts, ready)).2 ↔
      v ∈ ready ∨ 0 < targets.count v ∧ counts[v]? = some (targets.count v) := by
  induction targets generalizing counts ready with
  | nil => simp
  | cons w rest ih =>
    rw [List.foldl_cons, ← Prod.mk.eta (p := release (counts, ready) w), ih, getElem?_release,
      snd_release, List.count_cons]
    · by_cases hw : w = v
      · subst hw
        cases hc : counts[w]? with
        | none => simp
        | some n =>
          have hn := h n hc
          rw [List.count_cons_self] at hn
          by_cases h1 : n = 1
          · have h0 : rest.count w = 0 := by omega
            simp [h1, h0]
          · have hiff : 0 < rest.count w ∧ n - 1 = rest.count w ↔ n = rest.count w + 1 := by omega
            simp [h1, hiff, -List.count_pos_iff]
      · have hmem : v ∈ (if counts[w]? = some 1 then ready ++ [w] else ready) ↔ v ∈ ready := by
          split <;> simp [Ne.symm hw]
        simp [hw, hmem]
    · exact count_le_of_release h

theorem nodup_ready_releases (hnodup : ready.Nodup) (hzero : ∀ v ∈ ready, counts[v]? = some 0) :
    (targets.foldl release (counts, ready)).2.Nodup := by
  induction targets generalizing counts ready with
  | nil => exact hnodup
  | cons w rest ih =>
    rw [List.foldl_cons, ← Prod.mk.eta (p := release (counts, ready) w)]
    refine ih ?_ fun v hv => ?_
    · rw [snd_release]
      split
      · rename_i h1
        refine List.nodup_append.2 ⟨hnodup, List.nodup_singleton w, fun a ha b hb hab => ?_⟩
        rw [List.mem_singleton.1 hb] at hab
        rw [hab] at ha
        simp [hzero w ha] at h1
      · exact hnodup
    · rw [getElem?_release]
      rw [snd_release] at hv
      by_cases hw : w = v
      · subst hw
        by_cases h1 : counts[w]? = some 1
        · simp [h1]
        · rw [if_neg h1] at hv
          simp [hzero w hv]
      · rw [if_neg hw]
        refine hzero v ?_
        split at hv
        · rcases List.mem_append.1 hv with hv | hv
          · exact hv
          · exact absurd (List.mem_singleton.1 hv).symm hw
        · exact hv

end Countdown

/-! ## Counting edges -/

theorem nodup_successors : (g.successors u).Nodup := nodup_of_distinct Std.ExtTreeMap.distinct_keys

theorem nodup_predecessors : (g.predecessors v).Nodup := nodup_nodes.filter _

/-- How many edges enter `v` from nodes that are not among these. -/
def waiting (g : Graph) (emitted : List NodeId) (v : NodeId) : Nat :=
  ((g.predecessors v).filter (· ∉ emitted)).length

theorem waiting_eq_zero_iff {emitted : List NodeId} :
    g.waiting emitted v = 0 ↔ ∀ u, g.Edge u v → u ∈ emitted := by
  unfold waiting
  rw [List.length_eq_zero_iff, List.filter_eq_nil_iff]
  simp only [mem_predecessors, decide_eq_true_eq, Decidable.not_not]
  rfl

/-- The edges that leave a batch, counted by their target. -/
theorem count_targets {batch : List NodeId} (hb : batch.Nodup) :
    (batch.flatMap g.successors).count v = ((g.predecessors v).filter (· ∈ batch)).length := by
  have hsum : (batch.flatMap g.successors).count v = (batch.filter (v ∈ g.successors ·)).length := by
    clear hb
    induction batch with
    | nil => rfl
    | cons u rest ih =>
      rw [List.flatMap_cons, List.count_append, ih, nodup_successors.count, List.filter_cons]
      by_cases hu : v ∈ g.successors u
      · simp [hu, Nat.add_comm]
      · simp [hu]
  rw [hsum]
  refine List.Perm.length_eq ((List.perm_ext_iff_of_nodup (hb.filter _)
    (nodup_predecessors.filter _)).2 fun u => ?_)
  simp only [List.mem_filter, decide_eq_true_eq, mem_successors, mem_predecessors, and_comm]

/-- What a node waits for is in the next batch or is waited for longer. -/
theorem waiting_eq_add {batch emitted : List NodeId} (hb : batch.Nodup)
    (hnew : ∀ u ∈ batch, u ∉ emitted) :
    g.waiting emitted v =
      (batch.flatMap g.successors).count v + g.waiting (batch ++ emitted) v := by
  unfold waiting
  rw [count_targets hb, List.length_eq_length_filter_add (· ∈ batch)]
  simp only [List.filter_filter]
  congr 2
  · refine List.filter_congr fun u _ => ?_
    by_cases hu : u ∈ batch
    · simp [hu, hnew u hu]
    · simp [hu]
  · refine List.filter_congr fun u _ => ?_
    simp

/-! ## Rounds -/

namespace Countdown

variable {c : Countdown}

/-- The next batch. -/
def next (c : Countdown) : List NodeId := c.ready.mergeSort (· ≤ ·)

theorem mem_next : v ∈ c.next ↔ v ∈ c.ready := (List.mergeSort_perm _ _).mem_iff

theorem counts_round :
    (c.round g).counts = ((c.next.flatMap g.successors).foldl release (c.counts, [])).1 := rfl

theorem ready_round :
    (c.round g).ready = ((c.next.flatMap g.successors).foldl release (c.counts, [])).2 := rfl

theorem flatten_emitted_round : (c.round g).emitted.flatten = c.next ++ c.emitted.flatten := rfl

theorem batches_round : (c.round g).batches = c.batches ++ [c.next] := List.reverse_cons

/-- Where a countdown stands after `k` rounds. -/
structure After (g : Graph) (k : Nat) (c : Countdown) : Prop where
  emitted : ∀ v, v ∈ c.emitted.flatten ↔ g.contains v = true ∧ g.Above k v
  once : c.emitted.flatten.Nodup
  counts : ∀ v, c.counts[v]? =
    if g.contains v = true then some (g.waiting c.emitted.flatten v) else none
  ready : ∀ v, v ∈ c.ready ↔ g.contains v = true ∧ g.Depth v k
  distinct : c.ready.Nodup
  rounds : c.batches.length = k
  batch : ∀ i b, c.batches[i]? = some b →
    b.Pairwise (· < ·) ∧ ∀ v, v ∈ b ↔ g.contains v = true ∧ g.Depth v i

theorem After.start (g : Graph) : After g 0 (start g) := by
  have habove : ∀ v, ¬ g.Above 0 v := fun v h => absurd (h 0 v (.nil v)) (Nat.lt_irrefl 0)
  refine ⟨fun v => by simp [Countdown.start, habove], by simp [Countdown.start], fun v => ?_, fun v => ?_,
    nodup_nodes.filter _, rfl, fun i b h => by simp [Countdown.start, batches] at h⟩
  · simp only [Countdown.start, Std.ExtTreeMap.getElem?_map]
    cases hv : g.contains v with
    | false => simp [row_eq_none hv]
    | true =>
      obtain ⟨row, hrow⟩ := contains_iff_exists_row.1 hv
      simp [hrow, waiting]
  · simp only [Countdown.start, List.mem_filter, mem_nodes, List.isEmpty_iff, List.eq_nil_iff_forall_not_mem,
      mem_predecessors, depth_iff, habove, not_false_eq_true, true_and]
    rfl

theorem After.next_new (h : After g k c) : ∀ u ∈ c.next, u ∉ c.emitted.flatten := by
  intro u hu he
  exact ((h.ready u).1 (mem_next.1 hu)).2.not_above ((h.emitted u).1 he).2

theorem After.nodup_next (h : After g k c) : c.next.Nodup :=
  (List.mergeSort_perm _ _).nodup_iff.2 h.distinct

/-- Every edge that a round counts off is one that its target waits for. -/
theorem After.waiting_eq (h : After g k c) :
    g.waiting c.emitted.flatten v =
      (c.next.flatMap g.successors).count v + g.waiting (c.round g).emitted.flatten v :=
  waiting_eq_add h.nodup_next h.next_new

/-- A round releases no node more often than its count says. -/
theorem After.count_targets_le (h : After g k c) :
    ∀ n, c.counts[v]? = some n → (c.next.flatMap g.successors).count v ≤ n := by
  intro n hn
  rw [h.counts v] at hn
  simp only [Option.ite_none_right_eq_some, Option.some.injEq] at hn
  have := h.waiting_eq (v := v)
  omega

theorem After.emitted_round (h : After g k c) :
    v ∈ (c.round g).emitted.flatten ↔ g.contains v = true ∧ g.Above (k + 1) v := by
  rw [flatten_emitted_round, List.mem_append, mem_next, h.ready, h.emitted, above_succ_iff,
    ← and_or_left, or_comm]

/-- A round makes those nodes ready that waited for its batch and for nothing else. -/
theorem After.ready_round (h : After g k c) :
    v ∈ (c.round g).ready ↔ g.contains v = true ∧ g.Depth v (k + 1) := by
  have hcount := h.waiting_eq (v := v)
  rw [Countdown.ready_round, mem_ready_releases, h.counts v]
  · simp only [List.not_mem_nil, false_or, Option.ite_none_right_eq_some, Option.some.injEq]
    constructor
    · rintro ⟨hpos, hv, hall⟩
      have hpred : ∀ u, g.Edge u v → u ∈ (c.round g).emitted.flatten :=
        waiting_eq_zero_iff.1 (by omega)
      refine ⟨hv, depth_iff.2 ⟨fun ha => ?_, fun u he => (h.emitted_round.1 (hpred u he)).2⟩⟩
      -- some predecessor is in this batch, so a walk of one more step ends here
      obtain ⟨u, hu, he⟩ := List.mem_flatMap.1 (List.count_pos_iff.1 hpos)
      obtain ⟨w, hw⟩ := ((h.ready u).1 (mem_next.1 hu)).2.1
      exact absurd (ha _ w (hw.snoc (mem_successors.1 he))) (Nat.lt_irrefl _)
    · rintro ⟨hv, hd⟩
      obtain ⟨hlow, hpred⟩ := depth_iff.1 hd
      have hzero : g.waiting (c.round g).emitted.flatten v = 0 :=
        waiting_eq_zero_iff.2 fun u he => h.emitted_round.2 ⟨he.source, hpred u he⟩
      refine ⟨?_, hv, by omega⟩
      -- were it released by none of this batch, it would have been ready before
      by_contra hnone
      have hready : g.Depth v k := by
        refine depth_iff.2 ⟨fun ha => hlow fun n u hw => Nat.lt_succ_of_lt (ha n u hw), fun u he => ?_⟩
        exact ((h.emitted u).1 (waiting_eq_zero_iff.1 (by omega) u he)).2
      exact absurd (hready.unique hd) (by omega)
  · exact h.count_targets_le

theorem After.round (h : After g k c) : After g (k + 1) (c.round g) := by
  refine ⟨fun v => h.emitted_round, ?_, fun v => ?_, fun v => h.ready_round, ?_, ?_, fun i b hb => ?_⟩
  · rw [flatten_emitted_round]
    exact List.nodup_append.2 ⟨h.nodup_next, h.once, fun a ha b hb hab => h.next_new a ha (hab ▸ hb)⟩
  · rw [counts_round, getElem?_releases, h.counts v]
    split
    · rw [Option.map_some, h.waiting_eq, Nat.add_sub_cancel_left]
    · rfl
  · exact nodup_ready_releases List.nodup_nil (by simp)
  · rw [batches_round, List.length_append, h.rounds]; rfl
  · rw [batches_round] at hb
    rcases Nat.lt_trichotomy i k with hi | rfl | hi
    · rw [List.getElem?_append_left (by rw [h.rounds]; exact hi)] at hb
      exact h.batch i b hb
    · rw [List.getElem?_append_right (by rw [h.rounds]), h.rounds, Nat.sub_self] at hb
      obtain rfl : c.next = b := by simpa using hb
      exact ⟨pairwise_lt_mergeSort h.distinct, fun v => mem_next.trans (h.ready v)⟩
    · rw [List.getElem?_eq_none (by simp [h.rounds]; omega)] at hb
      cases hb

theorem After.run (h : After g k c) :
    ∃ m, After g m (run g n c) ∧ ((run g n c).ready = [] ∨ m = k + n) := by
  induction n generalizing k c with
  | zero => exact ⟨k, h, .inr rfl⟩
  | succ n ih =>
    rw [Countdown.run]
    split
    · rename_i hempty
      exact ⟨k, h, .inl (List.isEmpty_iff.1 hempty)⟩
    · obtain ⟨m, hm, hrest⟩ := ih h.round
      exact ⟨m, hm, hrest.imp_right fun h => by omega⟩

/-- As many rounds as there are nodes bring a countdown to rest. -/
theorem exists_after_run (g : Graph) :
    ∃ m, After g m (run g g.nodeCount (start g)) ∧ (run g g.nodeCount (start g)).ready = [] := by
  obtain ⟨m, hm, hrest⟩ := (After.start g).run (n := g.nodeCount)
  refine ⟨m, hm, ?_⟩
  rcases hrest with hrest | rfl
  · exact hrest
  · refine List.eq_nil_iff_forall_not_mem.2 fun v hv => ?_
    obtain ⟨hv, hd⟩ := (hm.ready v).1 hv
    have := hd.lt_nodeCount hv
    omega

/-! ## At rest -/

/-- A countdown comes to rest below every node that it did not emit: walks of any length end there. -/
theorem After.exists_walk (h : After g k c) (hrest : c.ready = []) (hv : g.contains v = true)
    (hnew : v ∉ c.emitted.flatten) (n : Nat) : ∃ u, g.contains u = true ∧ Walk g.Edge n u v := by
  induction n generalizing v with
  | zero => exact ⟨v, hv, .nil v⟩
  | succ n ih =>
    have hdepth : ¬ g.Depth v k := by
      intro hd
      have hmem := (h.ready v).2 ⟨hv, hd⟩
      rw [hrest] at hmem
      exact List.not_mem_nil hmem
    have hnot : ¬ g.Above k v := fun ha => hnew ((h.emitted v).2 ⟨hv, ha⟩)
    rw [depth_iff] at hdepth
    push Not at hdepth
    obtain ⟨x, he, hx⟩ := hdepth hnot
    obtain ⟨u, hu, hw⟩ := ih he.source fun hm => hx ((h.emitted x).1 hm).2
    exact ⟨u, hu, hw.snoc he⟩

theorem After.all_emitted_iff (h : After g k c) (hrest : c.ready = []) :
    (∀ v, g.contains v = true → v ∈ c.emitted.flatten) ↔ g.Acyclic := by
  constructor
  · intro hall v hc
    obtain ⟨m, hm, hw⟩ := exists_walk_of_cycle hc k
    have := ((h.emitted v).1 (hall v (contains_of_transGen hc).1)).2 m v hw
    omega
  · intro hg v hv
    by_contra hnew
    obtain ⟨u, hu, hw⟩ := h.exists_walk hrest hv hnew g.nodeCount
    exact absurd (hg.length_lt hu hw) (Nat.lt_irrefl _)

theorem After.length_emitted_iff (h : After g k c) :
    c.emitted.flatten.length = g.nodeCount ↔ ∀ v, g.contains v = true → v ∈ c.emitted.flatten := by
  have hsub : c.emitted.flatten ⊆ g.nodes := fun v hv => mem_nodes.2 ((h.emitted v).1 hv).1
  rw [← length_nodes]
  constructor
  · intro hlen v hv
    have hperm := (List.subperm_of_subset h.once hsub).perm_of_length_le (Nat.le_of_eq hlen.symm)
    exact hperm.mem_iff.2 (mem_nodes.2 hv)
  · intro hall
    refine List.Perm.length_eq ((List.perm_ext_iff_of_nodup h.once nodup_nodes).2 fun v => ?_)
    exact ⟨fun hv => hsub hv, fun hv => hall v (mem_nodes.1 hv)⟩

end Countdown

/-! ## The batches of a graph -/

/-- Batches that list every node once, in identity order, each at the depth of its nodes. -/
structure Schedule (g : Graph) (bs : List (List NodeId)) : Prop where
  complete : ∀ v, v ∈ bs.flatten ↔ g.contains v = true
  once : bs.flatten.Nodup
  sorted : ∀ b ∈ bs, b.Pairwise (· < ·)
  level : ∀ k v, (∃ b, bs[k]? = some b ∧ v ∈ b) ↔ g.contains v = true ∧ g.Depth v k
  earlier : ∀ u v, g.Edge u v → ∀ (k : Nat) (b : List NodeId), bs[k]? = some b → v ∈ b →
    ∃ j < k, ∃ b', bs[j]? = some b' ∧ u ∈ b'

theorem Countdown.After.schedule {c : Countdown} (h : After g k c)
    (hall : ∀ v, g.contains v = true → v ∈ c.emitted.flatten) : Schedule g c.batches := by
  have hperm : c.batches.flatten.Perm c.emitted.flatten := (List.reverse_perm c.emitted).flatten
  have hmem : ∀ v, v ∈ c.batches.flatten ↔ g.contains v = true := fun v => by
    rw [hperm.mem_iff]
    exact ⟨fun hv => ((h.emitted v).1 hv).1, hall v⟩
  have hfind : ∀ v, g.contains v = true → ∃ j b, c.batches[j]? = some b ∧ v ∈ b ∧ g.Depth v j := by
    intro v hv
    obtain ⟨b, hb, hvb⟩ := List.mem_flatten.1 ((hmem v).2 hv)
    obtain ⟨j, hj⟩ := List.mem_iff_getElem?.1 hb
    exact ⟨j, b, hj, hvb, (((h.batch j b hj).2 v).1 hvb).2⟩
  refine ⟨hmem, hperm.nodup_iff.2 h.once, fun b hb => ?_, fun i v => ⟨?_, ?_⟩, fun u v he i b hb hv => ?_⟩
  · obtain ⟨i, hi⟩ := List.mem_iff_getElem?.1 hb
    exact (h.batch i b hi).1
  · rintro ⟨b, hb, hv⟩
    exact ((h.batch i b hb).2 v).1 hv
  · rintro ⟨hv, hd⟩
    obtain ⟨j, b, hj, hvb, hdj⟩ := hfind v hv
    obtain rfl := hdj.unique hd
    exact ⟨b, hj, hvb⟩
  · obtain ⟨j, b', hj, hub, ⟨⟨w, hw⟩, _⟩⟩ := hfind u he.source
    have hd := (((h.batch i b hb).2 v).1 hv).2
    exact ⟨j, hd.2 _ w (hw.snoc he), b', hj, hub⟩

theorem batches_cases (g : Graph) :
    (g.Acyclic ∧ ∃ bs, g.batches = .ok bs ∧ Schedule g bs) ∨
      (¬ g.Acyclic ∧ g.batches = .error (.cycle (g.findCycle.getD []))) := by
  obtain ⟨m, hm, hrest⟩ := Countdown.exists_after_run g
  have hacyclic := hm.length_emitted_iff.trans (hm.all_emitted_iff hrest)
  unfold batches
  by_cases hg : g.Acyclic
  · exact .inl ⟨hg, _, if_pos (hacyclic.2 hg), hm.schedule (hm.length_emitted_iff.1 (hacyclic.2 hg))⟩
  · exact .inr ⟨hg, if_neg fun hlen => hg (hacyclic.1 hlen)⟩

theorem exists_batches_iff : (∃ bs, g.batches = .ok bs) ↔ g.Acyclic := by
  rcases batches_cases g with ⟨hg, bs, hbs, -⟩ | ⟨hg, hbs⟩
  · exact iff_of_true ⟨bs, hbs⟩ hg
  · refine iff_of_false ?_ hg
    rintro ⟨bs, hok⟩
    rw [hbs] at hok
    cases hok

/-- **Batches are levels.** A graph has batches exactly if the search finds no cycle in it. They list
every node once, each in identity order, and the longest walk to a node has as many steps as there
are batches before its own, so that whatever has an edge to it comes earlier. A graph that has none
is refused with the cycle that the search finds. -/
theorem batches_eq_levels (g : Graph) :
    (g.findCycle = none ↔ ∃ bs, g.batches = .ok bs) ∧
    match g.batches with
    | .ok bs => Schedule g bs
    | .error e => ∃ members, members ≠ [] ∧ g.findCycle = some members ∧ e = .cycle members := by
  rw [findCycle_eq_none_iff]
  rcases batches_cases g with ⟨hg, bs, hbs, hs⟩ | ⟨hg, hbs⟩
  · rw [hbs]
    exact ⟨⟨fun _ => ⟨bs, rfl⟩, fun _ => hg⟩, hs⟩
  · rw [hbs]
    refine ⟨⟨fun h => absurd h hg, fun ⟨bs, h⟩ => by cases h⟩, ?_⟩
    cases hc : g.findCycle with
    | none => exact absurd (findCycle_eq_none_iff.1 hc) hg
    | some members => exact ⟨members, (isCycle_of_findCycle hc).1, rfl, rfl⟩

end Lineage.Graph
