import Lineage.Proofs.Graph.Selection
import Mathlib.Data.Set.Card

/-!
# Nearest origins

What a search from several origins knows between two rounds (`Orderly`), and what its labels mean when it
has come to rest (`Nearest`): a node has the label of every origin that leads to it within the bound, or of
two that no other one is nearer than.

A label that was dropped at one node is not passed on from there, so it is missing further on for reasons
that are not seen there. `Settled` carries them along: wherever an origin could arrive over `n` steps, it is
a label, or two others have arrived over no more. Since there is room for two labels only, these two are the
labels (`eq_or_eq_of_mem`), and no label came later than its origin could (`After.distance`).
-/

namespace Lineage.Graph

variable {g : Graph} {way : Direction} {bound : Option Nat} {selected : List NodeId}
  {o p q u v : NodeId} {m n : Nat}

/-- The shortest walk from `o` to `v` over dependencies, followed in this direction, has `n` steps. -/
def Apart (g : Graph) : Direction → NodeId → NodeId → Nat → Prop
  | .forward, o, v, n => Distance g.Dependency o v n
  | .backward, o, v, n => Distance (fun a b => g.Dependency b a) o v n

theorem apart_iff : g.Apart way o v n ↔ Distance (g.Along way) o v n := by
  cases way with
  | forward => rw [along_forward_eq]; rfl
  | backward => rw [along_backward_eq]; rfl

/-- A selected node that leads to `v` within the bound. -/
def LeadsTo (g : Graph) (way : Direction) (bound : Option Nat) (selected : List NodeId) (v o : NodeId) :
    Prop :=
  (o ∈ selected ∧ g.contains o = true) ∧ ∃ n, g.Apart way o v n ∧ Within bound n

theorem leadsTo_iff : g.LeadsTo way bound selected v o ↔
    (o ∈ selected ∧ g.contains o = true) ∧ ∃ n, Within bound n ∧ Walk (g.Along way) n o v := by
  unfold LeadsTo
  simp only [apart_iff, exists_walk_within_iff]

theorem finite_leadsTo : {o | g.LeadsTo way bound selected v o}.Finite :=
  selected.finite_toSet.subset fun _ h => h.1.1

namespace Labelling

variable {l : Labelling} {log done : List Arrival} {a : Arrival} {labels : List NodeId}

/-- What there is of a search between two rounds. -/
structure Snapshot where
  labels : NodeId → List NodeId
  /-- The arrivals that were taken, in that order. -/
  done : List Arrival
  /-- Those that wait. -/
  queue : List Arrival

/-- A search after so many rounds. -/
def snapshot (g : Graph) (way : Direction) (bound : Option Nat) (selected : List NodeId) (rounds : Nat) :
    Snapshot where
  labels := (run g way bound rounds (start g selected)).originsOf
  done := taken g way bound rounds (start g selected)
  queue := (run g way bound rounds (start g selected)).queue

/-- What holds at the start of every round. -/
structure Orderly (g : Graph) (selected : List NodeId) (s : Snapshot) : Prop where
  /-- Nothing is taken, or waits, before something nearer. -/
  sorted : (s.done ++ s.queue).Pairwise (·.distance ≤ ·.distance)
  few : ∀ v, (s.labels v).length ≤ 2
  distinct : ∀ v, (s.labels v).Nodup
  origin : ∀ v, ∀ o ∈ s.labels v, o ∈ selected ∧ g.contains o = true
  /-- The labels are those that were put into the queue. -/
  queued : ∀ v o, o ∈ s.labels v ↔ ∃ a ∈ s.done ++ s.queue, a.node = v ∧ a.origin = o
  /-- None was put there twice. -/
  once : ((s.done ++ s.queue).map fun a => (a.node, a.origin)).Nodup
  bounded : (s.done ++ s.queue).length ≤ 2 * g.nodeCount

/-- A search at rest with the labels of nearest origins. -/
structure Nearest (g : Graph) (way : Direction) (bound : Option Nat) (selected : List NodeId)
    (s : Snapshot) : Prop where
  rest : s.queue = []
  count : ∀ v, (s.labels v).length = min 2 {o | g.LeadsTo way bound selected v o}.ncard
  leads : ∀ v, ∀ o ∈ s.labels v, g.LeadsTo way bound selected v o
  /-- A selected node that is not a label is no nearer than those that are. -/
  nearest : ∀ v, ∀ o ∈ s.labels v, ∀ p ∈ selected, g.contains p = true → p ∉ s.labels v →
    ∀ m n, g.Apart way o v m → g.Apart way p v n → m ≤ n
  /-- Each label came as early as it could. -/
  distance : ∀ a ∈ s.done, g.Apart way a.origin a.node a.distance

/-! ## Between two rounds -/

theorem count_originsAt :
    (originsAt log v).count o = (log.map fun a => (a.node, a.origin)).count (v, o) := by
  unfold originsAt
  simp only [List.count, List.countP_map, List.countP_filter]
  refine List.countP_congr fun a _ => ?_
  simp [and_comm]

/-- No origin arrives twice at one node exactly if no pair of node and origin arrives twice. -/
theorem nodup_arrivals_iff :
    (log.map fun a => (a.node, a.origin)).Nodup ↔ ∀ v, (originsAt log v).Nodup := by
  simp only [List.nodup_iff_count_le_one, count_originsAt, Prod.forall]

theorem Records.once (h : Records g way bound selected done l) :
    ((done ++ l.queue).map fun a => (a.node, a.origin)).Nodup :=
  nodup_arrivals_iff.2 fun v => h.labels v ▸ h.distinct v

theorem Records.mem_originsOf (h : Records g way bound selected done l) :
    o ∈ l.originsOf v ↔ ∃ a ∈ done ++ l.queue, a.node = v ∧ a.origin = o := by
  rw [h.labels, mem_originsAt]

theorem Records.orderly (h : Records g way bound selected done l) :
    Orderly g selected ⟨l.originsOf, done, l.queue⟩ where
  sorted := h.sorted
  few := h.few
  distinct := h.distinct
  origin v o ho := by
    obtain ⟨a, ha, -, rfl⟩ := h.mem_originsOf.1 ho
    exact ⟨(h.accounted a ha).selected, (h.accounted a ha).known⟩
  queued v o := h.mem_originsOf
  once := h.once
  bounded := h.length_le

/-! ## At rest -/

/-- A list with two different members and no room for a third has no others. -/
theorem eq_or_eq_of_mem (hfew : labels.length ≤ 2) (hp : p ∈ labels) (hq : q ∈ labels) (hne : p ≠ q)
    (ho : o ∈ labels) : o = p ∨ o = q := by
  by_contra hother
  obtain ⟨hop, hoq⟩ := not_or.1 hother
  have hthree : [o, p, q].Nodup := by simp [hop, hoq, hne]
  have hsub : [o, p, q] ⊆ labels := by simp [ho, hp, hq]
  have hlen := (List.subperm_of_subset hthree hsub).length_le
  simp only [List.length_cons, List.length_nil] at hlen
  omega

/-- Wherever an origin could arrive but did not, two others did, and no label there came later. -/
theorem After.near_of_settled (h : After g way bound selected done l) (hrest : l.queue = [])
    (hsettled : Settled done v p n) (hp : ¬ Near done v p n) :
    (l.originsOf v).length = 2 ∧ ∀ o ∈ l.originsOf v, Near done v o n := by
  have hlabels := h.labels v
  rw [hrest, List.append_nil] at hlabels
  obtain ⟨r, s, hne, hr, hs⟩ := hsettled.resolve_left hp
  have hmem : r ∈ l.originsOf v ∧ s ∈ l.originsOf v := by
    rw [hlabels]
    exact ⟨hr.mem, hs.mem⟩
  have hpair : [r, s].Nodup := by simpa using hne
  have htwo : 2 ≤ (l.originsOf v).length := (List.subperm_of_subset hpair (by simp [hmem])).length_le
  refine ⟨Nat.le_antisymm (h.few v) htwo, fun o ho => ?_⟩
  rcases eq_or_eq_of_mem (h.few v) hmem.1 hmem.2 hne ho with rfl | rfl
  · exact hr
  · exact hs

/-- A label came as early as a walk allows: had it been late, two others would have kept it out. -/
theorem After.distance (h : After g way bound selected done l) (hrest : l.queue = []) (ha : a ∈ done) :
    g.Apart way a.origin a.node a.distance := by
  have hlog : done ++ l.queue = done := by rw [hrest, List.append_nil]
  have hacc := h.accounted a (List.mem_append_left _ ha)
  have hlate : ∀ k, Near done a.node a.origin k → a.distance ≤ k := by
    rintro k ⟨b, hb, hnode, horigin, hd⟩
    have honce := h.once
    rw [hlog] at honce
    have hba : b = a := List.inj_on_of_nodup_map honce hb ha (by rw [hnode, horigin])
    rwa [← hba]
  refine apart_iff.2 ⟨hacc.walk, fun k hw => ?_⟩
  by_contra hk
  have hsettled := h.settled hrest hacc.selected hacc.known (hacc.within.mono (by omega)) hw
  have hnot : ¬ Near done a.node a.origin k := fun hnear => hk (hlate k hnear)
  exact hnot ((h.near_of_settled hrest hsettled hnot).2 _
    (h.mem_originsOf.2 ⟨a, List.mem_append_left _ ha, rfl, rfl⟩))

theorem After.leads (h : After g way bound selected done l) (ho : o ∈ l.originsOf v) :
    g.LeadsTo way bound selected v o := by
  obtain ⟨a, ha, rfl, rfl⟩ := h.mem_originsOf.1 ho
  have hacc := h.accounted a ha
  exact leadsTo_iff.2 ⟨⟨hacc.selected, hacc.known⟩, _, hacc.within, hacc.walk⟩

/-- An origin that is missing at a node leaves it with two labels, none of them further away. -/
theorem After.near_of_not_mem (h : After g way bound selected done l) (hrest : l.queue = [])
    (hp : p ∈ selected) (hknown : g.contains p = true) (hnot : p ∉ l.originsOf v) (hn : Within bound n)
    (hw : Walk (g.Along way) n p v) :
    (l.originsOf v).length = 2 ∧ ∀ o ∈ l.originsOf v, Near done v o n := by
  refine h.near_of_settled hrest (h.settled hrest hp hknown hn hw) fun hnear => hnot ?_
  rw [h.labels, hrest, List.append_nil]
  exact hnear.mem

theorem After.count (h : After g way bound selected done l) (hrest : l.queue = []) (v : NodeId) :
    (l.originsOf v).length = min 2 {o | g.LeadsTo way bound selected v o}.ncard := by
  have hsub : ((l.originsOf v).toFinset : Set NodeId) ⊆ {o | g.LeadsTo way bound selected v o} := by
    intro o ho
    exact h.leads (List.mem_toFinset.1 ho)
  have hcard : ((l.originsOf v).toFinset : Set NodeId).ncard = (l.originsOf v).length := by
    rw [Set.ncard_coe_finset, List.toFinset_card_of_nodup (h.distinct v)]
  have hle := Set.ncard_le_ncard hsub finite_leadsTo
  rw [hcard] at hle
  by_cases hall : ∀ o, g.LeadsTo way bound selected v o → o ∈ l.originsOf v
  · have heq : {o | g.LeadsTo way bound selected v o} = ((l.originsOf v).toFinset : Set NodeId) :=
      Set.Subset.antisymm (fun o ho => List.mem_toFinset.2 (hall o ho)) hsub
    rw [heq, hcard, Nat.min_eq_right (h.few v)]
  · push Not at hall
    obtain ⟨p, hp, hnot⟩ := hall
    obtain ⟨⟨hsel, hknown⟩, n, hn, hw⟩ := leadsTo_iff.1 hp
    have htwo := (h.near_of_not_mem hrest hsel hknown hnot hn hw).1
    omega

theorem After.nearest (h : After g way bound selected done l) (hrest : l.queue = []) :
    Nearest g way bound selected ⟨l.originsOf, done, l.queue⟩ where
  rest := hrest
  count := h.count hrest
  leads v o ho := h.leads ho
  distance a ha := h.distance hrest ha
  nearest v o ho p hp hknown hnot m n hm hn := by
    have hm := apart_iff.1 hm
    have hn := apart_iff.1 hn
    by_cases hwithin : Within bound n
    · obtain ⟨a, ha, rfl, rfl, hd⟩ :=
        (h.near_of_not_mem hrest hp hknown hnot hwithin hn.1).2 o ho
      exact Nat.le_trans (hm.2 (h.accounted a (List.mem_append_left _ ha)).walk) hd
    · -- a label is within the bound, and this distance is not
      obtain ⟨-, k, hk, hw⟩ := leadsTo_iff.1 (h.leads ho)
      by_contra hlt
      exact hwithin (hk.mono (by have := hm.2 hw; omega))

end Labelling

end Lineage.Graph
