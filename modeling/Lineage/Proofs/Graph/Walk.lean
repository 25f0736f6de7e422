import Lineage.Graph.Lemmas
import Lineage.Graph.Reach
import Mathlib.Data.Finset.Card
import Mathlib.Logic.Relation

/-!
# Walks

A walk is counted by its steps and may meet a node again. `Walk.exists_loop` is the pigeonhole: a
walk that stays within a finite set and has at least as many steps as the set has members meets one
of them twice. Two facts follow: every node that can be reached can be reached by a short walk
(`Walk.exists_short`), and a graph without cycles has only short walks (`Acyclic.length_lt`).
-/

namespace Lineage

/-- A walk of `n` steps of `r`. -/
inductive Walk {α : Type} (r : α → α → Prop) : Nat → α → α → Prop
  | nil (u : α) : Walk r 0 u u
  | cons {n : Nat} {u v w : α} : r u v → Walk r n v w → Walk r (n + 1) u w

section
variable {α : Type} {r q : α → α → Prop} {m n : Nat} {u v w : α}

/-! ## Taking walks apart and putting them together -/

theorem walk_zero_iff : Walk r 0 u v ↔ u = v := by
  constructor
  · intro h; cases h; rfl
  · rintro rfl; exact .nil u

theorem walk_succ_iff : Walk r (n + 1) u w ↔ ∃ v, r u v ∧ Walk r n v w := by
  constructor
  · intro h; cases h with
    | cons hr hw => exact ⟨_, hr, hw⟩
  · rintro ⟨v, hr, hw⟩; exact .cons hr hw

theorem Walk.append (h : Walk r m u v) (h' : Walk r n v w) : Walk r (m + n) u w := by
  induction h with
  | nil u => rwa [Nat.zero_add]
  | cons hr _ ih => rw [Nat.add_right_comm]; exact .cons hr (ih h')

theorem Walk.snoc (h : Walk r n u v) (hr : r v w) : Walk r (n + 1) u w :=
  h.append (.cons hr (.nil w))

/-- A walk can be cut after any number of its steps. -/
theorem Walk.cut (h : Walk r (m + n) u w) : ∃ v, Walk r m u v ∧ Walk r n v w := by
  induction m generalizing u with
  | zero => exact ⟨u, .nil u, by rwa [Nat.zero_add] at h⟩
  | succ m ih =>
    rw [Nat.add_right_comm] at h
    obtain ⟨x, hr, hx⟩ := walk_succ_iff.1 h
    obtain ⟨v, hm, hn⟩ := ih hx
    exact ⟨v, .cons hr hm, hn⟩

theorem walk_succ_iff_last : Walk r (n + 1) u w ↔ ∃ v, Walk r n u v ∧ r v w := by
  constructor
  · intro h
    obtain ⟨v, hn, h1⟩ := h.cut
    obtain ⟨x, hr, hx⟩ := walk_succ_iff.1 h1
    rw [walk_zero_iff.1 hx] at hr
    exact ⟨v, hn, hr⟩
  · rintro ⟨v, hn, hr⟩; exact hn.snoc hr

theorem Walk.mono (hrq : ∀ u v, r u v → q u v) (h : Walk r n u v) : Walk q n u v := by
  induction h with
  | nil u => exact .nil u
  | cons hr _ ih => exact .cons (hrq _ _ hr) ih

theorem Walk.reverse (h : Walk r n u v) : Walk (fun u v => r v u) n v u := by
  induction h with
  | nil u => exact .nil u
  | cons hr _ ih => exact ih.snoc hr

/-- A walk does not leave a set that its steps do not leave. -/
theorem Walk.mem {s : α → Prop} (hs : ∀ u v, s u → r u v → s v) (h : Walk r n u v) (hu : s u) :
    s v := by
  induction h with
  | nil u => exact hu
  | cons hr _ ih => exact ih (hs _ _ hu hr)

/-! ## Reachability -/

theorem reflTransGen_iff_walk : Relation.ReflTransGen r u v ↔ ∃ n, Walk r n u v := by
  constructor
  · intro h
    induction h with
    | refl => exact ⟨0, .nil u⟩
    | tail _ hr ih => obtain ⟨n, hn⟩ := ih; exact ⟨n + 1, hn.snoc hr⟩
  · rintro ⟨n, h⟩
    induction h with
    | nil u => exact .refl
    | cons hr _ ih => exact .head hr ih

theorem transGen_iff_walk : Relation.TransGen r u v ↔ ∃ n, Walk r (n + 1) u v := by
  rw [Relation.TransGen.head'_iff]
  constructor
  · rintro ⟨x, hr, hx⟩
    obtain ⟨n, hn⟩ := reflTransGen_iff_walk.1 hx
    exact ⟨n, .cons hr hn⟩
  · rintro ⟨n, h⟩
    obtain ⟨x, hr, hx⟩ := walk_succ_iff.1 h
    exact ⟨x, hr, reflTransGen_iff_walk.2 ⟨n, hx⟩⟩

/-- Going round a cycle often enough gives walks of any length. -/
theorem exists_walk_of_cycle (h : Relation.TransGen r v v) (n : Nat) : ∃ m, n ≤ m ∧ Walk r m v v := by
  obtain ⟨k, hk⟩ := transGen_iff_walk.1 h
  induction n with
  | zero => exact ⟨0, Nat.le_refl 0, .nil v⟩
  | succ n ih =>
    obtain ⟨m, hm, hw⟩ := ih
    exact ⟨m + (k + 1), by omega, hw.append hk⟩

/-! ## Walks in a finite set -/

/-- The nodes that a walk meets, by the number of steps before them. -/
theorem Walk.exists_trace (h : Walk r n u v) :
    ∃ f : Nat → α, f 0 = u ∧ f n = v ∧ ∀ i j, i + j ≤ n → Walk r j (f i) (f (i + j)) := by
  induction h with
  | nil u =>
    refine ⟨fun _ => u, rfl, rfl, fun i j hij => ?_⟩
    obtain rfl : j = 0 := by omega
    exact .nil u
  | @cons n u x v hr _ ih =>
    obtain ⟨f, h0, hn, hf⟩ := ih
    refine ⟨fun i => if i = 0 then u else f (i - 1), by simp, by simpa using hn, fun i j hij => ?_⟩
    cases i with
    | succ i =>
      have hw := hf i j (by omega)
      rw [show i + 1 + j = i + j + 1 by omega]
      simpa using hw
    | zero =>
      cases j with
      | zero => exact .nil _
      | succ j =>
        have hw := hf 0 j (by omega)
        rw [h0, Nat.zero_add] at hw
        simpa using Walk.cons hr hw

/-- A walk within `s` of at least as many steps as `s` has members meets some node twice. -/
theorem Walk.exists_loop {s : Finset α} (hs : ∀ u v, u ∈ s → r u v → v ∈ s) (h : Walk r n u v)
    (hu : u ∈ s) (hn : s.card ≤ n) :
    ∃ a b c w, a + (b + 1) + c = n ∧ Walk r a u w ∧ Walk r (b + 1) w w ∧ Walk r c w v := by
  obtain ⟨f, h0, hv, hf⟩ := h.exists_trace
  have hmem : Set.MapsTo f (Finset.range (n + 1)) s := by
    intro i hi
    have hw := hf 0 i (by simp at hi; omega)
    rw [h0, Nat.zero_add] at hw
    exact hw.mem hs hu
  obtain ⟨i, hi, j, hj, hne, hij⟩ :=
    Finset.exists_ne_map_eq_of_card_lt_of_maps_to (by simp; omega) hmem
  simp only [Finset.mem_range] at hi hj
  -- the two visits, in order
  wlog hlt : i < j generalizing i j
  · exact this j i (Ne.symm hne) hij.symm hj hi (by omega)
  refine ⟨i, j - i - 1, n - j, f i, by omega, ?_, ?_, ?_⟩
  · have hw := hf 0 i (by omega)
    rwa [h0, Nat.zero_add] at hw
  · have hw := hf i (j - i - 1 + 1) (by omega)
    rwa [show i + (j - i - 1 + 1) = j by omega, ← hij] at hw
  · have hw := hf j (n - j) (by omega)
    rwa [show j + (n - j) = n by omega, hv, ← hij] at hw

/-- What can be reached within a finite set can be reached in fewer steps than it has members. -/
theorem Walk.exists_short {s : Finset α} (hs : ∀ u v, u ∈ s → r u v → v ∈ s) (h : Walk r n u v)
    (hu : u ∈ s) : ∃ k, k ≤ n ∧ k < s.card ∧ Walk r k u v := by
  induction n using Nat.strongRecOn with
  | ind n ih =>
    by_cases hn : n < s.card
    · exact ⟨n, Nat.le_refl n, hn, h⟩
    · obtain ⟨a, b, c, w, hsum, ha, _, hc⟩ := h.exists_loop hs hu (by omega)
      obtain ⟨k, hk, hcard, hw⟩ := ih (a + c) (by omega) (ha.append hc)
      exact ⟨k, by omega, hcard, hw⟩

end

/-! ## Walks of a graph -/

namespace Graph

variable {g : Graph} {n : Nat} {u v : NodeId} {way : Direction}

/-- There is an edge of some kind from `u` to `v`. -/
def Edge (g : Graph) (u v : NodeId) : Prop := ∃ kind, g.kind? u v = some kind

/-- There is a dependency edge from `u` to `v`. -/
def Dependency (g : Graph) (u v : NodeId) : Prop := g.kind? u v = some .dependency

/-- A traversal that goes this way steps from `u` to `v`. -/
def Along (g : Graph) (way : Direction) (u v : NodeId) : Prop := v ∈ g.neighbours way u

/-- No node leads back to itself, over edges of any kind. -/
def Acyclic (g : Graph) : Prop := ∀ v, ¬ Relation.TransGen g.Edge v v

theorem Dependency.edge (h : g.Dependency u v) : g.Edge u v := ⟨_, h⟩

theorem follows_iff : g.follows u v = true ↔ g.Dependency u v := by
  unfold follows Dependency
  cases g.kind? u v with
  | none => simp
  | some kind => cases kind <;> simp [EdgeKind.traversable]

theorem along_forward : g.Along .forward u v ↔ g.Dependency u v := by
  unfold Along neighbours
  rw [List.mem_filter, mem_successors, follows_iff]
  exact ⟨And.right, fun h => ⟨h.edge, h⟩⟩

theorem along_backward : g.Along .backward u v ↔ g.Dependency v u := by
  unfold Along neighbours
  rw [List.mem_filter, mem_predecessors, follows_iff]
  exact ⟨And.right, fun h => ⟨h.edge, h⟩⟩

theorem along_forward_eq : g.Along .forward = g.Dependency :=
  funext fun _ => funext fun _ => propext along_forward

theorem along_backward_eq : g.Along .backward = fun u v => g.Dependency v u :=
  funext fun _ => funext fun _ => propext along_backward

/-- Traversals see nothing of a graph but its dependencies. -/
theorem along_congr {h : Graph} (hdep : h.Dependency = g.Dependency) : h.Along way = g.Along way := by
  cases way with
  | forward => rw [along_forward_eq, along_forward_eq, hdep]
  | backward => rw [along_backward_eq, along_backward_eq, hdep]

theorem walk_forward : Walk (g.Along .forward) n u v ↔ Walk g.Dependency n u v :=
  ⟨fun h => h.mono fun _ _ => along_forward.1, fun h => h.mono fun _ _ => along_forward.2⟩

theorem walk_backward : Walk (g.Along .backward) n u v ↔ Walk g.Dependency n v u :=
  ⟨fun h => h.reverse.mono fun _ _ => along_backward.1,
    fun h => h.reverse.mono fun _ _ => along_backward.2⟩

theorem Edge.source (h : g.Edge u v) : g.contains u = true := contains_source h.choose_spec

theorem Edge.target (h : g.Edge u v) : g.contains v = true := contains_target h.choose_spec

/-- Both ends of a path with a step are nodes. -/
theorem contains_of_transGen (h : Relation.TransGen g.Edge u v) :
    g.contains u = true ∧ g.contains v = true := by
  induction h with
  | single he => exact ⟨he.source, he.target⟩
  | tail _ he ih => exact ⟨ih.1, he.target⟩

theorem Along.source (h : g.Along way u v) : g.contains u = true := by
  cases way with
  | forward => exact (along_forward.1 h).edge.source
  | backward => exact (along_backward.1 h).edge.target

theorem Along.target (h : g.Along way u v) : g.contains v = true := by
  cases way with
  | forward => exact (along_forward.1 h).edge.target
  | backward => exact (along_backward.1 h).edge.source

/-- A walk that gets anywhere starts at a node. -/
theorem contains_of_walk (h : Walk (g.Along way) n u v) (hne : u ≠ v) : g.contains u = true := by
  cases h with
  | nil => exact absurd rfl hne
  | cons hstep _ => exact hstep.source

/-- The order of identities tells the members of a list apart if they are distinct by it. -/
theorem nodup_of_distinct {l : List NodeId} (h : l.Pairwise fun a b => ¬ compare a b = .eq) : l.Nodup :=
  h.imp fun hne heq => hne (by rw [heq]; exact Std.ReflCmp.compare_self)

theorem nodup_nodes : g.nodes.Nodup := nodup_of_distinct Std.ExtTreeMap.distinct_keys

theorem length_nodes : g.nodes.length = g.nodeCount := Std.ExtTreeMap.length_keys

/-- The nodes as a finite set. -/
def nodeFinset (g : Graph) : Finset NodeId := ⟨g.nodes, nodup_nodes⟩

theorem mem_nodeFinset : u ∈ g.nodeFinset ↔ g.contains u = true := mem_nodes

theorem card_nodeFinset : g.nodeFinset.card = g.nodeCount := length_nodes

/-- A graph without cycles has only walks that are shorter than it has nodes. -/
theorem Acyclic.length_lt (hg : g.Acyclic) (hu : g.contains u = true) (h : Walk g.Edge n u v) :
    n < g.nodeCount := by
  by_contra hn
  obtain ⟨_, b, _, w, _, _, hw, _⟩ := h.exists_loop (s := g.nodeFinset)
    (fun _ _ _ he => mem_nodeFinset.2 he.target) (mem_nodeFinset.2 hu)
    (by rw [card_nodeFinset]; omega)
  exact hg w (transGen_iff_walk.2 ⟨b, hw⟩)

end Graph

end Lineage
