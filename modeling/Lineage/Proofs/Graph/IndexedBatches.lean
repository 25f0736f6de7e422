import Lineage.Proofs.Graph.Countdown
import Lineage.Proofs.Graph.IndexedSearch

/-!
# Batches in an arena

In an arena a node counts the edges that the arena lists at it, and an edge is counted off from its source, in
whatever order the arena lists the neighbours. Counts and nodes are by index, and only a batch is put in order.
Such a count cannot go on below zero: there is no answer if it would (`lower`). It follows the countdown by
identities round by round (`Follows.round`), so it never would, and it comes to rest with the same batches
(`countdown_counts_awaited_edges`).
-/

namespace Lineage

open Lineage.Graph (Countdown)

namespace Indexed

variable {A : Arena}

/-! ## The count -/

/-- A count at the start of a round (in `topological_sort_grouped`). -/
structure Tally where
  /-- For each node, the edges that enter it from nodes of no batch so far. -/
  counts : Std.HashMap Nat Nat
  /-- The nodes of the next batch, in no particular order. -/
  current : List Nat
  batches : List (List NodeId)
  /-- How many nodes the batches have. -/
  emitted : Nat

/-- Lowers the count of one node, which goes into the next batch if that makes it zero. There is no answer
if the count is zero before. -/
def lower (s : Std.HashMap Nat Nat × List Nat) (i : Nat) : Option (Std.HashMap Nat Nat × List Nat) :=
  match s.1[i]? with
  | none => some s
  | some 0 => none
  | some (n + 1) => some (s.1.insert i n, if n = 0 then s.2 ++ [i] else s.2)

/-- How many edges enter each node (in `topological_sort_grouped`). -/
def inDegrees (x : Indexed A) : Std.HashMap Nat Nat :=
  .ofList ((A.nodeIndices x.arena).map fun i => (i, (A.edgesAt x.arena .backward i).length))

/-- The count before the first round. -/
def tally (x : Indexed A) : Tally where
  counts := x.inDegrees
  current := (x.inDegrees.toList.filter fun r => r.2 == 0).map (·.1)
  batches := []
  emitted := 0

/-- Where the edges lead that leave a batch, each edge on its own. -/
def outgoing (x : Indexed A) (batch : List Nat) : List Nat := batch.flatMap (A.neighboursAt x.arena .forward)

/-- Emits the current nodes, in the order of their identities, and counts off the edges that leave them
(in `topological_sort_grouped`). -/
def Tally.round (x : Indexed A) (t : Tally) : Option Tally :=
  let batch := x.inOrder t.current
  ((x.outgoing batch).foldlM lower (t.counts, [])).map fun s =>
    ⟨s.1, s.2, t.batches ++ [batch.map x.name], t.emitted + batch.length⟩

/-- Repeats rounds until no node is current, at most `rounds` times. -/
def Tally.run (x : Indexed A) : Nat → Tally → Option Tally
  | 0, t => some t
  | rounds + 1, t => if t.current.isEmpty then some t else (t.round x).bind (run x rounds)

/-- The count comes to rest, with this answer (`topological_sort_grouped`). -/
def Groups (x : Indexed A) (answer : Except GraphError (List (List NodeId))) : Prop :=
  ∃ last, x.tally.run x (A.nodeCount x.arena) = some last ∧ last.current = [] ∧
    if last.emitted = A.nodeCount x.arena then answer = .ok last.batches
    else ∃ found, x.Finds found ∧ answer = .error (.cycle (found.getD []))

/-- The edges that enter a node from nodes of no batch so far. -/
def awaited (x : Indexed A) (t : Tally) (i : Nat) : List (Nat × ArenaEdge) :=
  (A.edgesAt x.arena .backward i).filter fun r => x.name r.2.source ∉ t.batches.flatten

variable {x : Indexed A} {g : Graph} {c : Countdown} {t : Tally} {s : Std.HashMap Nat Nat × List Nat}
  {r r' : Std.ExtTreeMap NodeId Nat compare × List NodeId} {batch indices : List Nat} {i j k n : Nat}

/-! ## Edges at a node -/

theorem Represents.sources_perm (hA : A.Lawful) (h : x.Represents g.digraph) (hi : x.Used i) :
    ((A.edgesAt x.arena .backward i).map fun r => x.name r.2.source).Perm (g.predecessors (x.name i)) := by
  have hperm := neighbours_perm hA x .backward i
  have hlisted : Listed (· < ·) (x.neighbours .backward i) fun v => (g.kind? v (x.name i)).isSome :=
    h.listed_neighbours hA (h.table_name hi)
  refine hperm.symm.trans (.of_eq (hlisted.unique_of_lt ⟨Graph.pairwise_nodes.filter _, fun v => ?_⟩))
  rw [Graph.mem_predecessors, ← Option.isSome_iff_exists]

theorem Represents.length_edgesAt (hA : A.Lawful) (h : x.Represents g.digraph) (hi : x.Used i) :
    (A.edgesAt x.arena .backward i).length = (g.predecessors (x.name i)).length := by
  rw [← (h.sources_perm hA hi).length_eq, List.length_map]

theorem Represents.length_awaited (hA : A.Lawful) (h : x.Represents g.digraph) (hi : x.Used i) :
    (x.awaited t i).length = g.waiting t.batches.flatten (x.name i) := by
  have hperm := (h.sources_perm hA hi).filter fun u => u ∉ t.batches.flatten
  rw [List.filter_map] at hperm
  unfold Graph.waiting
  rw [← hperm.length_eq, List.length_map]
  rfl

theorem Represents.successors_perm (hA : A.Lawful) (h : x.Represents g.digraph) (hi : x.Used i) :
    ((A.neighboursAt x.arena .forward i).map x.name).Perm (g.successors (x.name i)) := by
  rw [← map_name_pending hA h hi]
  exact ((List.mergeSort_perm _ _).map x.name).symm

/-! ## One round -/

/-- Counts and nodes by index are those by identity. -/
structure Agrees (x : Indexed A) (s : Std.HashMap Nat Nat × List Nat)
    (r : Std.ExtTreeMap NodeId Nat compare × List NodeId) : Prop where
  counts : ∀ i, x.Used i → s.1[i]? = r.1[x.name i]?
  used : ∀ i ∈ s.2, x.Used i
  ready : s.2.map x.name = r.2

theorem lower_of_none (h : s.1[j]? = none) : lower s j = some s := by
  unfold lower
  rw [h]

theorem lower_of_succ (h : s.1[j]? = some (n + 1)) :
    lower s j = some (s.1.insert j n, if n = 0 then s.2 ++ [j] else s.2) := by
  unfold lower
  rw [h]

/-- A node has its count lowered by index whenever it has by identity. -/
theorem Agrees.lower (hx : x.Sound) (h : x.Agrees s r) (hj : x.Used j)
    (hr : Countdown.release? r (x.name j) = some r') : ∃ s', lower s j = some s' ∧ x.Agrees s' r' := by
  have hcount := h.counts j hj
  obtain ⟨hpos, hlow⟩ := Option.ite_none_left_eq_some.1 hr
  obtain rfl := Option.some.inj hlow
  cases hs : s.1[j]? with
  | none =>
    rw [Countdown.release_of_none (hcount.symm.trans hs)]
    exact ⟨s, lower_of_none hs, h⟩
  | some m =>
    rw [hs] at hcount
    cases m with
    | zero => exact absurd hcount.symm hpos
    | succ m =>
      refine ⟨_, lower_of_succ hs, fun i hi => ?_, ?_, ?_⟩
      · rw [Countdown.getElem?_release, Std.HashMap.getElem?_insert, ← h.counts i hi]
        by_cases hij : j = i
        · subst hij
          simp [hs]
        · have hname : x.name j ≠ x.name i := fun heq => hij ((hx.name_inj hj hi).1 heq)
          simp [hij, hname]
      · split
        · exact List.forall_mem_append.2 ⟨h.used, by simpa using hj⟩
        · exact h.used
      · rw [Countdown.snd_release, ← hcount, ← h.ready]
        simp only [Option.some.injEq, Nat.add_eq_right]
        split <;> simp

theorem Agrees.lowerAll (hx : x.Sound) (h : x.Agrees s r) (hused : ∀ j ∈ indices, x.Used j)
    (hr : (indices.map x.name).foldlM Countdown.release? r = some r') :
    ∃ s', indices.foldlM Indexed.lower s = some s' ∧ x.Agrees s' r' := by
  induction indices generalizing s r with
  | nil =>
    obtain rfl := Option.some.inj hr
    exact ⟨s, rfl, h⟩
  | cons j rest ih =>
    obtain ⟨hj, hrest⟩ := List.forall_mem_cons.1 hused
    rw [List.map_cons, List.foldlM_cons] at hr
    obtain ⟨r₁, hfirst, hr⟩ := Option.bind_eq_some_iff.1 hr
    obtain ⟨s₁, hs₁, h₁⟩ := h.lower hx hj hfirst
    obtain ⟨s', hs', h'⟩ := ih h₁ hrest hr
    exact ⟨s', by rw [List.foldlM_cons, hs₁]; exact hs', h'⟩

/-- At the start of a round a count by index stands where a countdown by identities does. -/
structure Follows (x : Indexed A) (t : Tally) (c : Countdown) : Prop where
  counts : ∀ i, x.Used i → t.counts[i]? = c.counts[x.name i]?
  used : ∀ i ∈ t.current, x.Used i
  current : (t.current.map x.name).Perm c.ready
  batches : t.batches = c.batches
  emitted : t.emitted = c.emitted.flatten.length

theorem Follows.current_eq_nil_iff (h : x.Follows t c) : t.current = [] ↔ c.ready = [] := by
  rw [← List.length_eq_zero_iff, ← List.length_map x.name, h.current.length_eq, List.length_eq_zero_iff]

theorem Sound.used_of_mem_outgoing (hA : A.Lawful) (h : x.Sound) (hj : j ∈ x.outgoing batch) : x.Used j := by
  obtain ⟨i, -, hij⟩ := List.mem_flatMap.1 hj
  exact used_of_mem_pending (i := i) hA h (mem_inOrder.2 hij)

theorem Represents.outgoing_perm (hA : A.Lawful) (h : x.Represents g.digraph)
    (hbatch : ∀ i ∈ batch, x.Used i) :
    ((x.outgoing batch).map x.name).Perm ((batch.map x.name).flatMap g.successors) := by
  rw [outgoing, List.map_flatMap, List.flatMap_map]
  exact .flatMap_left _ fun i hi => h.successors_perm hA (hbatch i hi)

/-- A round by index lowers no count that is zero, and stands where a round by identities does. -/
theorem Follows.round (hA : A.Lawful) (hx : x.Represents g.digraph) (h : x.Follows t c)
    (hc : Countdown.After g k c) : ∃ t', t.round x = some t' ∧ x.Follows t' (c.round g) := by
  have hbatch : (x.inOrder t.current).map x.name = c.next :=
    map_name_inOrder (h.current.trans (List.mergeSort_perm _ _).symm) (Graph.pairwise_lt_mergeSort hc.distinct)
  have hused : ∀ i ∈ x.inOrder t.current, x.Used i := fun i hi => h.used i (mem_inOrder.1 hi)
  have hperm := hx.outgoing_perm hA hused
  rw [hbatch] at hperm
  have hcount : ∀ v n, c.counts[v]? = some n →
      ((x.outgoing (x.inOrder t.current)).map x.name).count v ≤ n := by
    intro v n hn
    rw [hperm.count_eq]
    exact hc.count_targets_le n hn
  -- by index the edges are counted off in another order, which makes no difference
  obtain ⟨hcounts, hready⟩ := Countdown.releases_perm hperm hcount
  have hstart : x.Agrees (t.counts, []) (c.counts, []) := ⟨h.counts, by simp, rfl⟩
  obtain ⟨s', hs', h'⟩ := hstart.lowerAll hx.toSound (fun j => hx.used_of_mem_outgoing hA)
    (Countdown.foldlM_release? hcount)
  refine ⟨⟨s'.1, s'.2, t.batches ++ [(x.inOrder t.current).map x.name],
    t.emitted + (x.inOrder t.current).length⟩, congrArg (Option.map _) hs', fun i hi => ?_, h'.used, ?_, ?_, ?_⟩
  · rw [Countdown.counts_round, ← hcounts]
    exact h'.counts i hi
  · rw [Countdown.ready_round, h'.ready]
    exact hready
  · rw [Countdown.batches_round, hbatch, h.batches]
  · rw [Countdown.flatten_emitted_round, List.length_append, ← hbatch, List.length_map, h.emitted, Nat.add_comm]

/-! ## Whole counts -/

theorem getElem?_inDegrees (hA : A.Lawful) (hi : x.Used i) :
    x.inDegrees[i]? = some (A.edgesAt x.arena .backward i).length := by
  have hdistinct : ((A.nodeIndices x.arena).map fun i => (i, (A.edgesAt x.arena .backward i).length)).Pairwise
      fun a b => (a.1 == b.1) = false :=
    List.pairwise_map.2 ((hA.nodup_nodeIndices x.arena).imp beq_false_of_ne)
  exact Std.HashMap.getElem?_ofList_of_mem (beq_self_eq_true i) hdistinct
    (List.mem_map_of_mem ((hA.mem_nodeIndices _ _).2 hi))

theorem used_of_getElem?_inDegrees (hA : A.Lawful) (h : x.inDegrees[i]? = some n) : x.Used i := by
  by_contra hi
  refine absurd h ?_
  unfold inDegrees
  rw [Std.HashMap.getElem?_ofList_of_contains_eq_false]
  · simp
  · rw [← Bool.not_eq_true, List.contains_iff_mem, List.map_map]
    simpa [hA.mem_nodeIndices, Used] using hi

/-- The nodes of the first batch are those that no edge enters. -/
theorem mem_current_tally (hA : A.Lawful) :
    i ∈ x.tally.current ↔ x.Used i ∧ A.edgesAt x.arena .backward i = [] := by
  unfold tally
  simp only [List.mem_map, List.mem_filter, Std.HashMap.mem_toList_iff_getElem?_eq_some, beq_iff_eq,
    Prod.exists, exists_and_right, exists_eq_right]
  constructor
  · intro hi
    have hused := used_of_getElem?_inDegrees hA hi
    rw [getElem?_inDegrees hA hused] at hi
    exact ⟨hused, List.length_eq_zero_iff.1 (Option.some.inj hi)⟩
  · rintro ⟨hi, hnone⟩
    rw [getElem?_inDegrees hA hi, hnone]
    rfl

theorem nodup_current_tally : x.tally.current.Nodup := by
  have hkeys : (x.inDegrees.toList.map (·.1)).Nodup := by
    rw [Std.HashMap.map_fst_toList_eq_keys]
    exact Std.HashMap.nodup_keys
  exact hkeys.sublist (List.filter_sublist.map _)

theorem Follows.start (hA : A.Lawful) (hx : x.Represents g.digraph) :
    x.Follows x.tally (Countdown.start g) := by
  have hstart := Countdown.After.start g
  have hused : ∀ i ∈ x.tally.current, x.Used i := fun i hi => ((mem_current_tally hA).1 hi).1
  have hentered : ∀ i, x.Used i →
      (A.edgesAt x.arena .backward i = [] ↔ g.predecessors (x.name i) = []) := fun i hi => by
    rw [← List.length_eq_zero_iff, hx.length_edgesAt hA hi, List.length_eq_zero_iff]
  refine ⟨fun i hi => ?_, hused, ?_, rfl, rfl⟩
  · rw [hstart.counts, if_pos (hx.contains_name hi)]
    show x.inDegrees[i]? = _
    rw [getElem?_inDegrees hA hi, hx.length_edgesAt hA hi]
    simp [Graph.waiting, Countdown.start]
  · have hnodup : (x.tally.current.map x.name).Nodup :=
      List.Nodup.map_on (fun i hi j hj => (hx.name_inj (hused i hi) (hused j hj)).1) nodup_current_tally
    refine (List.perm_ext_iff_of_nodup hnodup hstart.distinct).2 fun v => ?_
    unfold Countdown.start
    simp only [List.mem_map, List.mem_filter, mem_current_tally hA, Graph.mem_nodes, List.isEmpty_iff]
    constructor
    · rintro ⟨i, ⟨hi, hnone⟩, rfl⟩
      exact ⟨hx.contains_name hi, (hentered i hi).1 hnone⟩
    · rintro ⟨hv, hnone⟩
      obtain ⟨i, -, hi, rfl⟩ := hx.exists_index hv
      exact ⟨i, ⟨hi, (hentered i hi).2 hnone⟩, rfl⟩

theorem Follows.run (hA : A.Lawful) (hx : x.Represents g.digraph) (h : x.Follows t c)
    (hc : Countdown.After g k c) (rounds : Nat) :
    ∃ t', t.run x rounds = some t' ∧ x.Follows t' (Countdown.run g rounds c) := by
  induction rounds generalizing t c k with
  | zero => exact ⟨t, rfl, h⟩
  | succ rounds ih =>
    have hempty : t.current = [] ↔ c.ready = [] := h.current_eq_nil_iff
    by_cases hrest : c.ready = []
    · rw [Countdown.run_of_ready_nil hrest, Tally.run, if_pos (List.isEmpty_iff.2 (hempty.2 hrest))]
      exact ⟨t, rfl, h⟩
    · obtain ⟨t', ht', hnext⟩ := h.round hA hx hc
      rw [Countdown.run_of_ready_ne_nil hrest, Tally.run,
        if_neg fun hcurrent => hrest (hempty.1 (List.isEmpty_iff.1 hcurrent)), ht']
      exact ih hnext hc.round

/-- A count gets through any number of rounds, and stands where the countdown by identities does. -/
theorem Represents.exists_run_tally (hA : A.Lawful) (hx : x.Represents g.digraph) (rounds : Nat) :
    ∃ t, x.tally.run x rounds = some t ∧ x.Follows t (Countdown.run g rounds (Countdown.start g)) :=
  (Follows.start hA hx).run hA hx (.start g) rounds

/-- Each node counts the edges that it waits for. -/
theorem Follows.getElem?_counts (hA : A.Lawful) (hx : x.Represents g.digraph) (h : x.Follows t c)
    (hc : Countdown.After g k c) (hi : x.Used i) : t.counts[i]? = some (x.awaited t i).length := by
  rw [h.counts i hi, hc.counts, if_pos (hx.contains_name hi), hx.length_awaited hA hi, h.batches, Countdown.waiting_batches]

/-- No node is current in two rounds. -/
theorem nodup_currents {tallies : Nat → Tally}
    (h : ∀ rounds, x.Follows (tallies rounds) (Countdown.run g rounds (Countdown.start g))) (rounds : Nat) :
    ((List.range rounds).flatMap fun i => (tallies i).current).Nodup := by
  have hperm : (((List.range rounds).flatMap fun i => (tallies i).current).map x.name).Perm
      ((List.range rounds).flatMap fun i => (Countdown.run g i (Countdown.start g)).ready) := by
    rw [List.map_flatMap]
    exact .flatMap_left _ fun i _ => (h i).current
  exact (hperm.nodup_iff.2 (Countdown.nodup_ready g rounds)).of_map x.name

/-- A count comes to rest, with the batches of the graph or the same cycle. -/
theorem Represents.groups_iff (hA : A.Lawful) (hx : x.Represents g.digraph)
    {answer : Except GraphError (List (List NodeId))} : x.Groups answer ↔ answer = g.batches := by
  obtain ⟨last, hrun, hlast⟩ := hx.exists_run_tally hA g.nodeCount
  have hrest : last.current = [] := hlast.current_eq_nil_iff.2 (Countdown.ready_run_eq_nil g)
  unfold Groups Graph.batches
  simp only [hx.nodeCount_eq hA, hrun, Option.some.injEq, exists_eq_left', hrest, true_and, hlast.emitted,
    hlast.batches, hx.finds_iff hA, exists_eq_left]
  split <;> rfl

end Indexed

/-! ## What is counted -/

open Graph.Countdown in
/-- **A countdown counts the edges that are waited for.** At the start of each round every node counts the
edges that enter it, of whatever kind, from nodes of no batch so far, and the round lowers no count that is
zero. So no node becomes ready twice, and after as many rounds as there are nodes none is ready. This holds of
the countdown by identities, cycles or not, and of the count in an arena after any edits that lead to this
graph, which emits the same batches and answers the same. -/
theorem countdown_counts_awaited_edges (g : Graph) :
    (∀ rounds, Balanced g (run g rounds (start g))) ∧
    (∀ rounds, ((List.range rounds).flatMap fun i => (run g i (start g)).ready).Nodup) ∧
    (run g g.nodeCount (start g)).ready = [] ∧
    ∀ A : Arena, A.Lawful → ∀ edits : List Edit, (Edit.runAll Graph.apply ∅ edits).2 = g →
      let x := (Edit.runAll Indexed.apply (Indexed.empty : Indexed A) edits).2
      ∃ tallies : Nat → Indexed.Tally,
        (∀ rounds, x.tally.run x rounds = some (tallies rounds)) ∧
        (∀ rounds i, x.Used i →
          (tallies rounds).counts[i]? = some (x.awaited (tallies rounds) i).length) ∧
        (∀ rounds, ((List.range rounds).flatMap fun i => (tallies i).current).Nodup) ∧
        (tallies (A.nodeCount x.arena)).current = [] ∧
        (∀ rounds, (tallies rounds).batches = (run g rounds (start g)).batches) ∧
        ∀ answer, x.Groups answer ↔ answer = g.batches := by
  refine ⟨fun rounds => ?_, nodup_ready g, ready_run_eq_nil g, ?_⟩
  · obtain ⟨m, hm⟩ := after_run g rounds
    exact hm.balanced
  · rintro A hA edits rfl x
    have hx := represents_runAll hA edits
    choose tallies hrun hfollows using hx.exists_run_tally hA
    refine ⟨tallies, hrun, fun rounds i hi => ?_, Indexed.nodup_currents hfollows, ?_,
      fun rounds => (hfollows rounds).batches, fun answer => hx.groups_iff hA⟩
    · obtain ⟨m, hm⟩ := after_run _ rounds
      exact (hfollows rounds).getElem?_counts hA hx hm hi
    · rw [hx.nodeCount_eq hA]
      exact (hfollows _).current_eq_nil_iff.2 (ready_run_eq_nil _)

open Graph.Countdown in
/-- After `r` and then `d` nothing is ready: `a` and `b` wait for each other and `s` for itself. The second edge
from `r` to `d` took the place of the first, and is counted once. -/
theorem countdown_counts_awaited_edges_cycle :
    let edits : List Edit :=
      [.ofEdges [("x", "r"), ("r", "a"), ("a", "b"), ("b", "a"), ("s", "s"), ("r", "d")], .removeNode "x",
        .addEdge "r" "b" .parentTest, .addEdge "r" "d" .parentTest]
    let g := (Edit.runAll Graph.apply ∅ edits).2
    let x := (Edit.runAll Indexed.apply (Indexed.empty : Indexed slotArena) edits).2
    slotArena.Lawful ∧ g.waiting [] "d" = 1 ∧ g.waiting ["r", "d"] "b" = 1 ∧
      (∃ t, x.tally.run x 2 = some t ∧ t.batches = [["r"], ["d"]]) ∧
      (∃ last, x.tally.run x (slotArena.nodeCount x.arena) = some last ∧ last.current = []) ∧
      x.Groups (.error (.cycle ["a", "b"])) := by
  intro edits g x
  obtain ⟨-, -, -, harena⟩ := countdown_counts_awaited_edges g
  obtain ⟨tallies, hrun, -, -, hrest, hbatches, hgroups⟩ := harena slotArena slotArena_lawful edits rfl
  have htwo : (run g 2 (start g)).batches = [["r"], ["d"]] := by decide +kernel
  have hcycle : g.batches = .error (.cycle ["a", "b"]) := by decide +kernel
  exact ⟨slotArena_lawful, by decide +kernel, by decide +kernel, ⟨_, hrun 2, (hbatches 2).trans htwo⟩,
    ⟨_, hrun _, hrest⟩, (hgroups _).2 hcycle.symm⟩

end Lineage
