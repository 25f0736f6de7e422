import Lineage.Proofs.Graph.Walk
import Mathlib.Order.Nat

/-!
# Breadth-first search

`spread` meets exactly what can be reached within its number of rounds (`mem_spread`). A round keeps
`Explored`: whatever was met and is not on the frontier has been left, so a walk can only get out of
the nodes met so far through the frontier (`Explored.exit`). Since no shortest walk meets a node
twice, the number of nodes is as good a bound as none (`mem_related`).
-/

namespace Lineage.Graph

/-! ## Sets of identities -/

section
variable {s : NodeSet} {l : List NodeId} {p : NodeId → Bool} {u v : NodeId}

theorem mem_ofList : v ∈ (Std.ExtTreeSet.ofList l : NodeSet) ↔ v ∈ l := by simp

theorem mem_insert : v ∈ s.insert u ↔ v = u ∨ v ∈ s := by
  rw [Std.ExtTreeSet.mem_insert, Std.LawfulEqOrd.compare_eq_iff_eq, eq_comm]

theorem mem_insertMany : v ∈ s.insertMany l ↔ v ∈ s ∨ v ∈ l := by simp

theorem mem_filter : v ∈ s.filter p ↔ v ∈ s ∧ p v = true := by
  rw [← Std.ExtTreeSet.mem_toList, Std.ExtTreeSet.toList_filter, List.mem_filter,
    Std.ExtTreeSet.mem_toList]

theorem mem_erase : v ∈ s.erase u ↔ v ≠ u ∧ v ∈ s := by
  rw [Std.ExtTreeSet.mem_erase, ne_eq, Std.LawfulEqOrd.compare_eq_iff_eq, ne_eq, eq_comm]

theorem mem_singleton : v ∈ ({u} : NodeSet) ↔ v = u := by
  rw [Std.ExtTreeSet.singleton_eq_insert, mem_insert, or_iff_left Std.ExtTreeSet.not_mem_empty]

end

/-! ## One round -/

section
variable {step : NodeId → List NodeId} {seen : NodeSet} {frontier : List NodeId} {n : Nat}
  {u v : NodeId}

theorem mem_nextFrontier :
    v ∈ nextFrontier step seen frontier ↔ (∃ u ∈ frontier, v ∈ step u) ∧ v ∉ seen := by
  unfold nextFrontier
  rw [Std.ExtTreeSet.mem_toList, mem_filter, mem_ofList, List.mem_flatMap, Bool.not_eq_true',
    ← Bool.not_eq_true, Std.ExtTreeSet.contains_iff_mem]

/-- What was met and is not on the frontier has been left. -/
structure Explored (step : NodeId → List NodeId) (seen : NodeSet) (frontier : List NodeId) : Prop where
  met : ∀ u ∈ frontier, u ∈ seen
  left : ∀ u ∈ seen, ∀ v ∈ step u, u ∈ frontier ∨ v ∈ seen

theorem Explored.next (h : Explored step seen frontier) :
    Explored step (seen.insertMany (nextFrontier step seen frontier))
      (nextFrontier step seen frontier) := by
  refine ⟨fun u hu => mem_insertMany.2 (.inr hu), fun u hu v hv => ?_⟩
  rcases mem_insertMany.1 hu with hu | hu
  · refine .inr (mem_insertMany.2 ?_)
    rcases h.left u hu v hv with hf | hs
    · by_cases hs : v ∈ seen
      · exact .inl hs
      · exact .inr (mem_nextFrontier.2 ⟨⟨u, hf, hv⟩, hs⟩)
    · exact .inl hs
  · exact .inl hu

/-- A walk that gets out of the nodes met so far does so from the frontier. -/
theorem Explored.exit (h : Explored step seen frontier) (hw : Walk (fun u v => v ∈ step u) n u v)
    (hu : u ∈ seen) :
    v ∈ seen ∨ ∃ s ∈ frontier, ∃ k ≤ n, Walk (fun u v => v ∈ step u) k s v := by
  induction hw with
  | nil u => exact .inl hu
  | @cons n u x v hr hx ih =>
    rcases h.left u hu x hr with hf | hs
    · exact .inr ⟨u, hf, n + 1, Nat.le_refl _, .cons hr hx⟩
    · rcases ih hs with hv | ⟨s, hsf, k, hk, hw⟩
      · exact .inl hv
      · exact .inr ⟨s, hsf, k, by omega, hw⟩

/-! ## The search -/

/-- A search meets, besides what it starts with, what few enough steps from its frontier lead to. -/
theorem mem_spread (h : Explored step seen frontier) :
    v ∈ spread step n seen frontier ↔
      v ∈ seen ∨ ∃ s ∈ frontier, ∃ k ≤ n, Walk (fun u v => v ∈ step u) k s v := by
  induction n generalizing seen frontier with
  | zero =>
    rw [spread]
    refine ⟨.inl, ?_⟩
    rintro (hv | ⟨s, hs, k, hk, hw⟩)
    · exact hv
    · obtain rfl : k = 0 := by omega
      rw [← walk_zero_iff.1 hw]
      exact h.met s hs
  | succ n ih =>
    by_cases hf : frontier = []
    · subst hf; simp [spread]
    · rw [spread.eq_3 _ _ _ _ hf, ih h.next]
      constructor
      · rintro (hv | ⟨s, hs, k, hk, hw⟩)
        · rcases mem_insertMany.1 hv with hv | hv
          · exact .inl hv
          · obtain ⟨⟨u, hu, hstep⟩, _⟩ := mem_nextFrontier.1 hv
            exact .inr ⟨u, hu, 1, by omega, .cons hstep (.nil v)⟩
        · obtain ⟨⟨u, hu, hstep⟩, _⟩ := mem_nextFrontier.1 hs
          exact .inr ⟨u, hu, k + 1, by omega, .cons hstep hw⟩
      · rintro (hv | ⟨s, hs, k, hk, hw⟩)
        · exact .inl (mem_insertMany.2 (.inl hv))
        · cases k with
          | zero =>
            rw [← walk_zero_iff.1 hw]
            exact .inl (mem_insertMany.2 (.inl (h.met s hs)))
          | succ k =>
            obtain ⟨x, hr, hx⟩ := walk_succ_iff.1 hw
            -- the first step ends among the nodes met after this round
            have hmet : x ∈ seen.insertMany (nextFrontier step seen frontier) := by
              by_cases hx : x ∈ seen
              · exact mem_insertMany.2 (.inl hx)
              · exact mem_insertMany.2 (.inr (mem_nextFrontier.2 ⟨⟨s, hs, hr⟩, hx⟩))
            rcases h.next.exit hx hmet with hv | ⟨t, ht, j, hj, hw⟩
            · exact .inl hv
            · exact .inr ⟨t, ht, j, by omega, hw⟩

end

/-! ## Distances -/

/-- The shortest walk of `r` from `u` to `v` has `n` steps. -/
def Distance (r : NodeId → NodeId → Prop) (u v : NodeId) (n : Nat) : Prop := IsLeast {k | Walk r k u v} n

/-- A distance that a bound allows. -/
def Within (bound : Option Nat) (n : Nat) : Prop := ∀ k ∈ bound, n ≤ k

theorem Within.mono {bound : Option Nat} {m n : Nat} (h : Within bound n) (hm : m ≤ n) : Within bound m :=
  fun k hk => Nat.le_trans hm (h k hk)

/-- Some walk is within the bound exactly if the shortest is. -/
theorem exists_walk_within_iff {r : NodeId → NodeId → Prop} {bound : Option Nat} {u v : NodeId} :
    (∃ n, Within bound n ∧ Walk r n u v) ↔ ∃ n, Distance r u v n ∧ Within bound n := by
  constructor
  · rintro ⟨n, hn, hw⟩
    classical
    have hsome : ∃ k, Walk r k u v := ⟨n, hw⟩
    have hleast := Nat.isLeast_find hsome
    exact ⟨Nat.find hsome, hleast, hn.mono (hleast.2 hw)⟩
  · rintro ⟨n, hn, hwithin⟩
    exact ⟨n, hwithin, hn.1⟩

/-! ## Ancestors and descendants -/

variable {g : Graph} {way : Direction} {bound : Option Nat} {id u v : NodeId} {n : Nat}

theorem within_succ_iff : Within bound (n + 1) ↔ ¬ bound.any (· ≤ n) = true := by
  cases bound with
  | none => simp [Within]
  | some k =>
    simp only [Within, Option.mem_some_iff, forall_eq', Option.any_some, decide_eq_true_eq]
    omega

theorem le_searchDepth : n ≤ g.searchDepth bound ↔ Within bound n ∧ n ≤ g.nodeCount := by
  cases bound with
  | none => simp [searchDepth, Within]
  | some k => simp [searchDepth, Within]

/-- What can be reached can be reached in fewer steps than there are nodes. -/
theorem exists_short_along (h : Walk (g.Along way) n u v) (hu : g.contains u = true) :
    ∃ k ≤ n, k < g.nodeCount ∧ Walk (g.Along way) k u v := by
  obtain ⟨k, hk, hcard, hw⟩ := h.exists_short (s := g.nodeFinset)
    (fun _ _ _ ha => mem_nodeFinset.2 ha.target) (mem_nodeFinset.2 hu)
  exact ⟨k, hk, by rwa [card_nodeFinset] at hcard, hw⟩

/-- The related nodes are the others that a walk within the bound leads to. -/
theorem mem_related :
    v ∈ g.related way id bound ↔ v ≠ id ∧ ∃ n, Within bound n ∧ Walk (g.Along way) n id v := by
  have hstart : Explored (g.neighbours way) {id} [id] := by
    refine ⟨fun u hu => ?_, fun u hu v _ => .inl ?_⟩
    · rw [List.mem_singleton.1 hu, mem_singleton]
    · rw [mem_singleton.1 hu]; exact List.mem_singleton_self id
  unfold related
  rw [mem_erase, mem_spread hstart, mem_singleton]
  refine and_congr_right fun hne => ?_
  constructor
  · rintro (hv | ⟨s, hs, k, hk, hw⟩)
    · exact absurd hv hne
    · rw [List.mem_singleton.1 hs] at hw
      exact ⟨k, (le_searchDepth.1 hk).1, hw⟩
  · rintro ⟨n, hn, hw⟩
    refine .inr ⟨id, List.mem_singleton_self id, ?_⟩
    cases hw with
    | nil => exact absurd rfl hne
    | cons hr hx =>
      obtain ⟨k, hk, hcount, hw⟩ := exists_short_along (.cons hr hx) hr.source
      exact ⟨k, le_searchDepth.2 ⟨hn.mono hk, by omega⟩, hw⟩

/-- Without a bound, the ancestors of a node are the others from which dependencies lead to it. -/
theorem mem_related_backward :
    u ∈ g.related .backward v none ↔ u ≠ v ∧ Relation.ReflTransGen g.Dependency u v := by
  rw [mem_related, reflTransGen_iff_walk]
  simp only [walk_backward, Within, Option.mem_def, reduceCtorEq, false_imp_iff, implies_true, true_and]

theorem related_congr {h : Graph} (hdep : h.Dependency = g.Dependency) :
    h.related way id bound = g.related way id bound := by
  refine Std.ExtTreeSet.ext_mem fun v => ?_
  rw [mem_related, mem_related, along_congr hdep]

/-- Both the node that is asked about and what is found are in the graph. -/
theorem contains_of_mem_related (h : v ∈ g.related way id bound) :
    g.contains id = true ∧ g.contains v = true := by
  obtain ⟨hne, n, -, hw⟩ := mem_related.1 h
  cases n with
  | zero => exact absurd (walk_zero_iff.1 hw).symm hne
  | succ n =>
    obtain ⟨_, -, hlast⟩ := walk_succ_iff_last.1 hw
    exact ⟨contains_of_walk hw hne.symm, hlast.target⟩

/-- What a node leads to this way are the nodes that lead to it the other way, as far as the same bound. -/
theorem mem_related_comm : v ∈ g.related .forward u bound ↔ u ∈ g.related .backward v bound := by
  rw [mem_related, mem_related, ne_comm]
  simp only [walk_forward, walk_backward]

theorem descendants_eq_ok {found : NodeSet} :
    g.descendants id bound = .ok found ↔
      g.contains id = true ∧ g.related .forward id bound = found := by
  unfold descendants known
  cases g.contains id <;> simp [Except.map]

theorem ancestors_eq_ok {found : NodeSet} :
    g.ancestors id bound = .ok found ↔
      g.contains id = true ∧ g.related .backward id bound = found := by
  unfold ancestors known
  cases g.contains id <;> simp [Except.map]

end Lineage.Graph
