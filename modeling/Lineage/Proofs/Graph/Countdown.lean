import Lineage.Proofs.Graph.Batches

/-!
# What a countdown counts

A countdown keeps no record of what it emitted: that it lowers no count below zero, and that it emits no
node twice, is due to its counts alone. At the start of each round they say how many edges enter a node from
nodes not yet emitted (`Balanced`), and a node becomes ready when the last of these is counted off. The order
in which a round counts its edges off makes no difference but to the order of the nodes that become ready
(`releases_perm`).
-/

namespace Lineage.Graph.Countdown

variable {g : Graph} {c : Countdown} {counts : Std.ExtTreeMap NodeId Nat compare}
  {ready targets targets' : List NodeId} {k n rounds : Nat}

/-! ## Releases -/

theorem release_of_none {state : Std.ExtTreeMap NodeId Nat compare × List NodeId} {v : NodeId}
    (h : state.1[v]? = none) : release state v = state := by
  unfold release
  rw [h]

/-- Lowers the count of one node, which must not be zero yet (in `topological_sort_grouped`). -/
def release? (state : Std.ExtTreeMap NodeId Nat compare × List NodeId) (v : NodeId) :
    Option (Std.ExtTreeMap NodeId Nat compare × List NodeId) :=
  if state.1[v]? = some 0 then none else some (release state v)

/-- Releases find no count at zero if there are no more of a node than its count says. -/
theorem foldlM_release? (h : ∀ v n, counts[v]? = some n → targets.count v ≤ n) :
    targets.foldlM release? (counts, ready) = some (targets.foldl release (counts, ready)) := by
  induction targets generalizing counts ready with
  | nil => rfl
  | cons w rest ih =>
    have hw : counts[w]? ≠ some 0 := by
      intro hzero
      have hle := h w 0 hzero
      rw [List.count_cons_self] at hle
      omega
    have hfirst : release? (counts, ready) w = some (release (counts, ready) w) := if_neg hw
    rw [List.foldlM_cons, hfirst, List.foldl_cons]
    exact ih fun v => count_le_of_release (h v)

/-- Releases in another order leave the same counts and make the same nodes ready. -/
theorem releases_perm (hperm : targets.Perm targets')
    (h : ∀ v n, counts[v]? = some n → targets.count v ≤ n) :
    (targets.foldl release (counts, [])).1 = (targets'.foldl release (counts, [])).1 ∧
      (targets.foldl release (counts, [])).2.Perm (targets'.foldl release (counts, [])).2 := by
  have hcount : ∀ v, targets.count v = targets'.count v := fun v => hperm.count_eq v
  constructor
  · refine Std.ExtTreeMap.ext_getElem? fun v => ?_
    rw [getElem?_releases, getElem?_releases, hcount]
  · have hnodup : ∀ l : List NodeId, (l.foldl release (counts, [])).2.Nodup := fun l =>
      nodup_ready_releases List.nodup_nil (by simp)
    refine (List.perm_ext_iff_of_nodup (hnodup _) (hnodup _)).2 fun v => ?_
    rw [mem_ready_releases (h v), mem_ready_releases (hcount v ▸ h v), hcount]

/-! ## Runs -/

theorem run_of_ready_nil (h : c.ready = []) (n : Nat) : run g n c = c := by
  cases n with
  | zero => rfl
  | succ n => rw [run, if_pos (List.isEmpty_iff.2 h)]

theorem run_of_ready_ne_nil (h : c.ready ≠ []) (n : Nat) : run g (n + 1) c = run g n (c.round g) := by
  rw [run, if_neg (fun hc => h (List.isEmpty_iff.1 hc))]

/-- One more round is one round at the end. -/
theorem run_succ (n : Nat) (c : Countdown) :
    run g (n + 1) c = if (run g n c).ready = [] then run g n c else (run g n c).round g := by
  induction n generalizing c with
  | zero =>
    by_cases hc : c.ready = []
    · rw [run_of_ready_nil hc, run_of_ready_nil hc, if_pos hc]
    · rw [run_of_ready_ne_nil hc, run, run, if_neg hc]
  | succ n ih =>
    by_cases hc : c.ready = []
    · rw [run_of_ready_nil hc, run_of_ready_nil hc, if_pos hc]
    · rw [run_of_ready_ne_nil hc (n + 1), run_of_ready_ne_nil hc n, ih]

theorem after_run (g : Graph) (rounds : Nat) : ∃ m, After g m (run g rounds (start g)) := by
  obtain ⟨m, hm, -⟩ := (After.start g).run (n := rounds)
  exact ⟨m, hm⟩

theorem ready_run_eq_nil (g : Graph) : (run g g.nodeCount (start g)).ready = [] := by
  obtain ⟨-, -, hrest⟩ := exists_after_run g
  exact hrest

/-- The nodes that were ready at the start of a round are those emitted since. -/
theorem ready_perm (g : Graph) (rounds : Nat) :
    ((List.range rounds).flatMap fun i => (run g i (start g)).ready).Perm
      (run g rounds (start g)).emitted.flatten := by
  induction rounds with
  | zero => exact .refl _
  | succ rounds ih =>
    rw [List.range_succ, List.flatMap_append, List.flatMap_singleton, run_succ]
    by_cases hrest : (run g rounds (start g)).ready = []
    · rw [if_pos hrest, hrest, List.append_nil]
      exact ih
    · rw [if_neg hrest, flatten_emitted_round]
      exact List.perm_append_comm.trans ((List.mergeSort_perm _ _).symm.append ih)

/-- No node is ready at the start of two rounds. -/
theorem nodup_ready (g : Graph) (rounds : Nat) :
    ((List.range rounds).flatMap fun i => (run g i (start g)).ready).Nodup := by
  obtain ⟨m, hm⟩ := after_run g rounds
  exact (ready_perm g rounds).nodup_iff.2 hm.once

/-! ## Counts -/

/-- Each node counts the edges that enter it from nodes not yet emitted, and a round lowers no count that is
zero. -/
structure Balanced (g : Graph) (c : Countdown) : Prop where
  counts : ∀ v, c.counts[v]? =
    if g.contains v = true then some (g.waiting c.emitted.flatten v) else none
  positive : (c.next.flatMap g.successors).foldlM release? (c.counts, []) =
    some ((c.round g).counts, (c.round g).ready)

theorem waiting_batches {v : NodeId} : g.waiting c.batches.flatten v = g.waiting c.emitted.flatten v := by
  have hmem : ∀ u, u ∈ c.batches.flatten ↔ u ∈ c.emitted.flatten := fun _ =>
    (List.reverse_perm c.emitted).flatten.mem_iff
  unfold waiting
  simp only [hmem]

theorem After.balanced (h : After g k c) : Balanced g c :=
  ⟨h.counts, foldlM_release? fun _ => h.count_targets_le⟩

end Lineage.Graph.Countdown
