import Lineage.Graph.Selection
import Lineage.Proofs.Graph.Search

/-!
# Selections are unions

A selection is what the selected nodes lead to, one by one (`select_eq_union`). The search keeps two
origins per node and drops the others, and a dropped label is not passed on. What it keeps instead is
`Settled`: an origin that is missing at a node was preceded there by two others that are no further
away. Passing labels on keeps that, and of two origins at least one is not the node itself.

`After` says where a search stands once it has taken some arrivals. Everything that ever arrived is
kept in order of distance, since what arrives last is one step further than what was taken.
-/

namespace Lineage.Graph

variable {g : Graph} {way : Direction} {bound : Option Nat} {selected : List NodeId} {u v : NodeId}

namespace Labelling

variable {l : Labelling} {log done queue : List Arrival} {a : Arrival} {origin p q : NodeId} {m n : Nat}

/-! ## Labels -/

theorem originsOf_push :
    (l.push a).originsOf v = if a.node = v then l.originsOf v ++ [a.origin] else l.originsOf v := by
  unfold originsOf push
  rw [Std.ExtTreeMap.getD_insert]
  simp only [Std.LawfulEqOrd.compare_eq_iff_eq]
  split
  · rename_i hv
    rw [hv]
    rfl
  · rfl

theorem queue_push : (l.push a).queue = l.queue ++ [a] := rfl

theorem mem_reached : v ∈ l.reached ↔ ∃ origin ∈ l.originsOf v, origin ≠ v := by
  unfold reached originsOf
  rw [mem_ofList, List.mem_map]
  simp only [List.mem_filter, List.any_eq_true, bne_iff_ne, Prod.exists,
    Std.ExtTreeMap.mem_toList_iff_getElem?_eq_some]
  constructor
  · rintro ⟨u, origins, ⟨hu, hany⟩, rfl⟩
    rwa [Std.ExtTreeMap.getD_eq_getD_getElem?, hu]
  · rintro ⟨origin, hmem, hne⟩
    rw [Std.ExtTreeMap.getD_eq_getD_getElem?] at hmem
    cases hv : l.labels[v]? with
    | none => simp [hv] at hmem
    | some origins => exact ⟨v, origins, ⟨hv, origin, by simpa [hv] using hmem, hne⟩, rfl⟩

/-! ## What has arrived -/

/-- The origins that arrived at `v`, in order of arrival. -/
def originsAt (log : List Arrival) (v : NodeId) : List NodeId :=
  (log.filter (·.node = v)).map (·.origin)

theorem originsAt_append_singleton :
    originsAt (log ++ [a]) v = if a.node = v then originsAt log v ++ [a.origin] else originsAt log v := by
  unfold originsAt
  by_cases hv : a.node = v
  · simp [List.filter_append, hv]
  · simp [List.filter_append, hv]

theorem length_originsAt : (originsAt log v).length = (log.map (·.node)).count v := by
  unfold originsAt
  rw [List.length_map, ← List.countP_eq_length_filter, List.count, List.countP_map]
  refine List.countP_congr fun a _ => ?_
  simp

/-- `origin` arrived at `v` over at most `n` steps. -/
def Near (log : List Arrival) (v origin : NodeId) (n : Nat) : Prop :=
  ∃ a ∈ log, a.node = v ∧ a.origin = origin ∧ a.distance ≤ n

/-- `origin` arrived at `v` over at most `n` steps, or two others did. -/
def Settled (log : List Arrival) (v origin : NodeId) (n : Nat) : Prop :=
  Near log v origin n ∨ ∃ p q, p ≠ q ∧ Near log v p n ∧ Near log v q n

theorem Near.mono {log' : List Arrival} (h : Near log v origin m) (hlog : ∀ a ∈ log, a ∈ log')
    (hm : m ≤ n) : Near log' v origin n := by
  obtain ⟨a, ha, hv, ho, hd⟩ := h
  exact ⟨a, hlog a ha, hv, ho, by omega⟩

theorem Settled.mono {log' : List Arrival} (h : Settled log v origin m) (hlog : ∀ a ∈ log, a ∈ log')
    (hm : m ≤ n) : Settled log' v origin n := by
  rcases h with h | ⟨p, q, hne, hp, hq⟩
  · exact .inl (h.mono hlog hm)
  · exact .inr ⟨p, q, hne, hp.mono hlog hm, hq.mono hlog hm⟩

theorem mem_originsAt : origin ∈ originsAt log v ↔ ∃ a ∈ log, a.node = v ∧ a.origin = origin := by
  unfold originsAt
  simp [and_assoc]

theorem Near.mem (h : Near log v origin n) : origin ∈ originsAt log v := by
  obtain ⟨a, ha, hv, ho, _⟩ := h
  exact mem_originsAt.2 ⟨a, ha, hv, ho⟩

theorem near_of_mem (h : origin ∈ originsAt log v) (hlog : ∀ a ∈ log, a.distance ≤ n) :
    Near log v origin n := by
  obtain ⟨a, ha, hv, ho⟩ := mem_originsAt.1 h
  exact ⟨a, ha, hv, ho, hlog a ha⟩

/-- Where an origin is settled, the node has a label other than itself if the origin is another. -/
theorem Settled.exists_ne (h : Settled log v origin n) (hne : origin ≠ v) :
    ∃ p ∈ originsAt log v, p ≠ v := by
  rcases h with h | ⟨p, q, hpq, hp, hq⟩
  · exact ⟨origin, h.mem, hne⟩
  · by_cases hv : p = v
    · exact ⟨q, hq.mem, fun h => hpq (by rw [hv, h])⟩
    · exact ⟨p, hp.mem, hv⟩

/-! ## What the search keeps -/

/-- An arrival that a selected node accounts for. -/
structure Accounted (g : Graph) (way : Direction) (bound : Option Nat) (selected : List NodeId)
    (a : Arrival) : Prop where
  selected : a.origin ∈ selected
  known : g.contains a.origin = true
  within : Within bound a.distance
  walk : Walk (g.Along way) a.distance a.origin a.node

theorem Accounted.contains_node (h : Accounted g way bound selected a) : g.contains a.node = true :=
  h.walk.mem (s := fun v => g.contains v = true) (fun _ _ _ hstep => hstep.target) h.known

/-- A search that took the arrivals `done`: its labels and its queue record what has arrived. -/
structure Records (g : Graph) (way : Direction) (bound : Option Nat) (selected : List NodeId)
    (done : List Arrival) (l : Labelling) : Prop where
  labels : ∀ v, l.originsOf v = originsAt (done ++ l.queue) v
  distinct : ∀ v, (l.originsOf v).Nodup
  few : ∀ v, (l.originsOf v).length ≤ 2
  accounted : ∀ a ∈ done ++ l.queue, Accounted g way bound selected a
  sorted : (done ++ l.queue).Pairwise (·.distance ≤ ·.distance)
  span : ∀ a ∈ l.queue, ∀ b ∈ done ++ l.queue, b.distance ≤ a.distance + 1

/-- An arrival that is no nearer than any other, and at most one step further than any in the queue,
can be recorded at a node that does not have its origin and has fewer than two. -/
theorem Records.push (h : Records g way bound selected done l)
    (ha : Accounted g way bound selected a) (hnew : a.origin ∉ l.originsOf a.node)
    (hroom : (l.originsOf a.node).length < 2) (hlast : ∀ b ∈ done ++ l.queue, b.distance ≤ a.distance)
    (hnext : ∀ b ∈ l.queue, a.distance ≤ b.distance + 1) :
    Records g way bound selected done (l.push a) := by
  have hlog : done ++ (l.push a).queue = (done ++ l.queue) ++ [a] := by
    rw [queue_push, List.append_assoc]
  refine ⟨fun v => ?_, fun v => ?_, fun v => ?_, ?_, ?_, ?_⟩
  · rw [hlog, originsOf_push, originsAt_append_singleton, h.labels v]
  · rw [originsOf_push]
    split
    · rename_i hv
      subst hv
      rw [← List.concat_eq_append]
      exact (h.distinct a.node).concat hnew
    · exact h.distinct v
  · rw [originsOf_push]
    split
    · rename_i hv
      subst hv
      rw [List.length_append, List.length_singleton]
      omega
    · exact h.few v
  · rw [hlog, List.forall_mem_append]
    exact ⟨h.accounted, by simpa using ha⟩
  · rw [hlog, List.pairwise_append]
    refine ⟨h.sorted, List.pairwise_singleton _ a, fun b hb c hc => ?_⟩
    rw [List.mem_singleton.1 hc]
    exact hlast b hb
  · rw [hlog, queue_push]
    intro c hc b hb
    rcases List.mem_append.1 hc with hc | hc
    · rcases List.mem_append.1 hb with hb | hb
      · exact h.span c hc b hb
      · rw [List.mem_singleton.1 hb]
        exact hnext c hc
    · rw [List.mem_singleton.1 hc]
      rcases List.mem_append.1 hb with hb | hb
      · have := hlast b hb; omega
      · rw [List.mem_singleton.1 hb]; omega

/-- Two labels per node: no more arrivals than twice the number of nodes. -/
theorem Records.length_le (h : Records g way bound selected done l) :
    (done ++ l.queue).length ≤ 2 * g.nodeCount := by
  have hsub : ((done ++ l.queue).map (·.node)).Subperm (g.nodes ++ g.nodes) := by
    rw [List.subperm_ext_iff]
    intro v hv
    obtain ⟨a, ha, rfl⟩ := List.mem_map.1 hv
    have hnode : a.node ∈ g.nodes := mem_nodes.2 (h.accounted a ha).contains_node
    have hfew := h.few a.node
    rw [h.labels, length_originsAt] at hfew
    rw [List.count_append, List.count_eq_one_of_mem nodup_nodes hnode]
    exact hfew
  have hlen := hsub.length_le
  simp only [List.length_map, List.length_append, length_nodes] at hlen ⊢
  omega

/-! ## One step -/

/-- An offer leaves its origin settled at its node, whether it is taken up or not. -/
theorem Records.offer (h : Records g way bound selected done l)
    (ha : Accounted g way bound selected a) (hlast : ∀ b ∈ done ++ l.queue, b.distance ≤ a.distance)
    (hnext : ∀ b ∈ l.queue, a.distance ≤ b.distance + 1) :
    Records g way bound selected done (l.offer a) ∧
      (∃ more, (l.offer a).queue = l.queue ++ more ∧ ∀ b ∈ more, b.distance = a.distance) ∧
      Settled (done ++ (l.offer a).queue) a.node a.origin a.distance := by
  have hoffer : l.offer a =
      if (l.originsOf a.node).length < 2 && !(l.originsOf a.node).contains a.origin then l.push a
      else l := rfl
  rw [hoffer]
  split
  · rename_i hc
    rw [Bool.and_eq_true, decide_eq_true_eq, Bool.not_eq_true', ← Bool.not_eq_true,
      List.contains_iff_mem] at hc
    refine ⟨h.push ha hc.2 hc.1 hlast hnext, ⟨[a], queue_push, by simp⟩, .inl ?_⟩
    exact ⟨a, by simp [queue_push], rfl, rfl, Nat.le_refl _⟩
  · rename_i hc
    refine ⟨h, ⟨[], by simp, by simp⟩, ?_⟩
    by_cases hknown : a.origin ∈ l.originsOf a.node
    · rw [h.labels] at hknown
      exact .inl (near_of_mem hknown hlast)
    · -- there are two labels already, and they are distinct
      have htwo : (l.originsOf a.node).length = 2 := by
        have := h.few a.node
        simp [hknown] at hc
        omega
      obtain ⟨p, q, hpq⟩ := List.length_eq_two.1 htwo
      have hnodup := h.distinct a.node
      have hmem : ∀ o ∈ [p, q], Near (done ++ l.queue) a.node o a.distance := fun o ho => by
        rw [← hpq, h.labels] at ho
        exact near_of_mem ho hlast
      refine .inr ⟨p, q, ?_, hmem p (by simp), hmem q (by simp)⟩
      rw [hpq] at hnodup
      simpa using hnodup

/-- The offers of one step. -/
def passOn (l : Labelling) (targets : List NodeId) (origin : NodeId) (n : Nat) : Labelling :=
  targets.foldl (fun l next => l.offer ⟨next, origin, n + 1⟩) l

theorem passOn_cons {targets : List NodeId} {w : NodeId} :
    l.passOn (w :: targets) origin n = (l.offer ⟨w, origin, n + 1⟩).passOn targets origin n := rfl

/-- One round: an arrival was taken, and its label is passed on to these neighbours unless the bound is
reached. -/
def turn (l : Labelling) (bound : Option Nat) (a : Arrival) (queue : List Arrival)
    (targets : List NodeId) : Labelling :=
  if bound.any (· ≤ a.distance) then { l with queue }
  else ({ l with queue } : Labelling).passOn targets a.origin a.distance

theorem step_of_queue (hq : l.queue = a :: queue) :
    l.step g way bound = l.turn bound a queue (g.neighbours way a.node) := by
  unfold step
  rw [hq]
  rfl

theorem step_of_nil (hq : l.queue = []) : l.step g way bound = l := by
  unfold step
  rw [hq]

/-- Offers to several neighbours leave the origin settled at each of them. -/
theorem Records.passOn {targets : List NodeId} (h : Records g way bound selected done l)
    (ha : ∀ w ∈ targets, Accounted g way bound selected ⟨w, origin, n + 1⟩)
    (hlast : ∀ b ∈ done ++ l.queue, b.distance ≤ n + 1) (hnext : ∀ b ∈ l.queue, n ≤ b.distance) :
    Records g way bound selected done (l.passOn targets origin n) ∧
      (∃ more, (l.passOn targets origin n).queue = l.queue ++ more) ∧
      ∀ w ∈ targets, Settled (done ++ (l.passOn targets origin n).queue) w origin (n + 1) := by
  induction targets generalizing l with
  | nil => exact ⟨h, ⟨[], by simp [Labelling.passOn]⟩, by simp⟩
  | cons w rest ih =>
    obtain ⟨h', ⟨more, hmore, hdist⟩, hsettled⟩ :=
      h.offer (ha w List.mem_cons_self) hlast fun b hb => by have := hnext b hb; simpa using this
    have hlast' : ∀ b ∈ done ++ (l.offer ⟨w, origin, n + 1⟩).queue, b.distance ≤ n + 1 := by
      rw [hmore, ← List.append_assoc, List.forall_mem_append]
      exact ⟨hlast, fun b hb => Nat.le_of_eq (hdist b hb)⟩
    have hnext' : ∀ b ∈ (l.offer ⟨w, origin, n + 1⟩).queue, n ≤ b.distance := by
      rw [hmore, List.forall_mem_append]
      exact ⟨hnext, fun b hb => by rw [hdist b hb]; exact Nat.le_succ n⟩
    obtain ⟨hrec, ⟨more', hmore'⟩, hall⟩ :=
      ih h' (fun w hw => ha w (List.mem_cons_of_mem _ hw)) hlast' hnext'
    rw [passOn_cons]
    refine ⟨hrec, ⟨more ++ more', by rw [hmore', hmore, List.append_assoc]⟩, fun x hx => ?_⟩
    rcases List.mem_cons.1 hx with rfl | hx
    · refine hsettled.mono (fun b hb => ?_) (Nat.le_refl _)
      rw [hmore', ← List.append_assoc]
      exact List.mem_append_left _ hb
    · exact hall x hx

/-- Where a search stands that took the arrivals `done`. -/
structure After (g : Graph) (way : Direction) (bound : Option Nat) (selected : List NodeId)
    (done : List Arrival) (l : Labelling) : Prop extends Records g way bound selected done l where
  started : ∀ s ∈ selected, g.contains s = true → Near (done ++ l.queue) s s 0
  passed : ∀ a ∈ done, Within bound (a.distance + 1) → ∀ w ∈ g.neighbours way a.node,
    Settled (done ++ l.queue) w a.origin (a.distance + 1)

/-- Taking an arrival moves it from the queue to those that were taken. -/
theorem Records.take (h : Records g way bound selected done l) (hq : l.queue = a :: queue) :
    Records g way bound selected (done ++ [a]) { l with queue } := by
  have hlog : (done ++ [a]) ++ queue = done ++ l.queue := by
    rw [hq, List.append_assoc, List.singleton_append]
  refine ⟨fun v => ?_, h.distinct, h.few, ?_, ?_, ?_⟩
  · rw [hlog]; exact h.labels v
  · rw [hlog]; exact h.accounted
  · rw [hlog]; exact h.sorted
  · rw [hlog]
    exact fun b hb => h.span b (by rw [hq]; exact List.mem_cons_of_mem _ hb)

/-- A round may list the neighbours in any order. -/
theorem After.turn {targets : List NodeId} (h : After g way bound selected done l)
    (hq : l.queue = a :: queue) (htargets : ∀ w, w ∈ targets ↔ w ∈ g.neighbours way a.node) :
    After g way bound selected (done ++ [a]) (l.turn bound a queue targets) := by
  have htake := h.toRecords.take hq
  have hlog : (done ++ [a]) ++ queue = done ++ l.queue := by
    rw [hq, List.append_assoc, List.singleton_append]
  have hacc := h.accounted a (by simp [hq])
  have hfront : ∀ b ∈ queue, a.distance ≤ b.distance := by
    have hsorted := (List.pairwise_append.1 h.sorted).2.1
    rw [hq] at hsorted
    exact (List.pairwise_cons.1 hsorted).1
  have hspan : ∀ b ∈ (done ++ [a]) ++ queue, b.distance ≤ a.distance + 1 := by
    rw [hlog]
    exact h.span a (by simp [hq])
  unfold Labelling.turn
  split
  · rename_i hbound
    refine ⟨htake, ?_, ?_⟩
    · rw [hlog]; exact h.started
    · rw [hlog]
      intro b hb hwithin
      rcases List.mem_append.1 hb with hb | hb
      · exact h.passed b hb hwithin
      · -- the bound keeps this one from being passed on
        rw [List.mem_singleton.1 hb, within_succ_iff] at hwithin
        exact absurd hbound hwithin
  · rename_i hbound
    have hwithin : Within bound (a.distance + 1) := within_succ_iff.2 hbound
    obtain ⟨hrec, ⟨more, hmore⟩, hall⟩ := htake.passOn
      (fun w hw => ⟨hacc.selected, hacc.known, hwithin, hacc.walk.snoc ((htargets w).1 hw)⟩) hspan hfront
    have hsub : ∀ b ∈ done ++ l.queue, b ∈ (done ++ [a]) ++
        (({ l with queue } : Labelling).passOn targets a.origin a.distance).queue := by
      rw [hmore, ← List.append_assoc, hlog]
      exact fun b hb => List.mem_append_left _ hb
    refine ⟨hrec, fun s hs hknown => (h.started s hs hknown).mono hsub (Nat.le_refl 0), ?_⟩
    intro b hb hb' w hw
    rcases List.mem_append.1 hb with hb | hb
    · exact (h.passed b hb hb' w hw).mono hsub (Nat.le_refl _)
    · rw [List.mem_singleton.1 hb] at hw ⊢
      exact hall w ((htargets w).2 hw)

/-! ## Whole runs -/

/-- Makes a selected node an origin, unless it is unknown or is one already. -/
def enlist (g : Graph) (l : Labelling) (id : NodeId) : Labelling :=
  if g.contains id && !(l.originsOf id).contains id then l.push ⟨id, id, 0⟩ else l

theorem start_eq : start g selected = selected.foldl (enlist g) ⟨∅, []⟩ := rfl

/-- So far each node arrived at itself only. -/
structure Enlisted (g : Graph) (way : Direction) (bound : Option Nat) (selected : List NodeId)
    (l : Labelling) : Prop extends Records g way bound selected [] l where
  own : ∀ a ∈ l.queue, a.node = a.origin ∧ a.distance = 0

theorem Enlisted.enlist (h : Enlisted g way bound selected l) (hv : v ∈ selected) :
    Enlisted g way bound selected (l.enlist g v) ∧ (∀ a ∈ l.queue, a ∈ (l.enlist g v).queue) ∧
      (g.contains v = true → Near (l.enlist g v).queue v v 0) := by
  have hown : ∀ o ∈ l.originsOf v, o = v := by
    intro o ho
    rw [h.labels] at ho
    obtain ⟨a, ha, hnode, horigin⟩ := mem_originsAt.1 ho
    rw [← horigin, ← (h.own a ha).1, hnode]
  unfold Labelling.enlist
  split
  · rename_i hc
    rw [Bool.and_eq_true, Bool.not_eq_true', ← Bool.not_eq_true, List.contains_iff_mem] at hc
    have hnone : l.originsOf v = [] :=
      List.eq_nil_iff_forall_not_mem.2 fun o ho => hc.2 (hown o ho ▸ ho)
    have hpush := h.toRecords.push (a := ⟨v, v, 0⟩) ⟨hv, hc.1, fun _ _ => Nat.zero_le _, .nil v⟩
      (by simp [hnone]) (by simp [hnone]) (fun b hb => Nat.le_of_eq (h.own b hb).2)
      (fun b _ => Nat.zero_le _)
    refine ⟨⟨hpush, ?_⟩, fun a ha => ?_, fun _ => ⟨⟨v, v, 0⟩, ?_, rfl, rfl, Nat.le_refl 0⟩⟩
    · rw [queue_push, List.forall_mem_append]
      exact ⟨h.own, by simp⟩
    · rw [queue_push]; exact List.mem_append_left _ ha
    · rw [queue_push]; simp
  · rename_i hc
    refine ⟨h, fun _ ha => ha, fun hknown => ?_⟩
    have hmem : v ∈ l.originsOf v := by simpa [hknown] using hc
    rw [h.labels] at hmem
    exact near_of_mem hmem fun a ha => Nat.le_of_eq (h.own a ha).2

theorem Enlisted.foldl {ids : List NodeId} (h : Enlisted g way bound selected l)
    (hids : ∀ s ∈ ids, s ∈ selected) :
    Enlisted g way bound selected (ids.foldl (Labelling.enlist g) l) ∧
      (∀ a ∈ l.queue, a ∈ (ids.foldl (Labelling.enlist g) l).queue) ∧
      ∀ s ∈ ids, g.contains s = true → Near (ids.foldl (Labelling.enlist g) l).queue s s 0 := by
  induction ids generalizing l with
  | nil => exact ⟨h, fun _ ha => ha, by simp⟩
  | cons id rest ih =>
    obtain ⟨h', hsub, hnear⟩ := h.enlist (hids id List.mem_cons_self)
    obtain ⟨hall, hsub', hnear'⟩ := ih h' fun s hs => hids s (List.mem_cons_of_mem _ hs)
    refine ⟨hall, fun a ha => hsub' a (hsub a ha), fun s hs hknown => ?_⟩
    rcases List.mem_cons.1 hs with rfl | hs
    · exact (hnear hknown).mono hsub' (Nat.le_refl 0)
    · exact hnear' s hs hknown

theorem After.start (g : Graph) (way : Direction) (bound : Option Nat) (selected : List NodeId) :
    After g way bound selected [] (start g selected) := by
  have hempty : Enlisted g way bound selected ⟨∅, []⟩ :=
    ⟨⟨fun v => by simp [originsOf, originsAt], fun v => by simp [originsOf],
      fun v => by simp [originsOf], by simp, by simp, by simp⟩, by simp⟩
  obtain ⟨hall, _, hnear⟩ := hempty.foldl fun _ (hs : _ ∈ selected) => hs
  rw [start_eq]
  exact ⟨hall.toRecords, hnear, by simp⟩

/-- The arrivals that the first rounds of a search take. -/
def taken (g : Graph) (way : Direction) (bound : Option Nat) : Nat → Labelling → List Arrival
  | 0, _ => []
  | rounds + 1, l => l.queue.take 1 ++ taken g way bound rounds (l.step g way bound)

theorem taken_of_nil (rounds : Nat) (hq : l.queue = []) : taken g way bound rounds l = [] := by
  induction rounds with
  | zero => rfl
  | succ rounds ih => rw [taken, hq, step_of_nil hq, ih, List.take_nil, List.append_nil]

theorem taken_of_cons (rounds : Nat) (hq : l.queue = a :: queue) :
    taken g way bound (rounds + 1) l = a :: taken g way bound rounds (l.step g way bound) := by
  rw [taken, hq]
  rfl

theorem run_of_nil (rounds : Nat) (hq : l.queue = []) : run g way bound rounds l = l := by
  cases rounds with
  | zero => rfl
  | succ rounds => rw [run, hq]; rfl

theorem run_of_cons (rounds : Nat) (hq : l.queue = a :: queue) :
    run g way bound (rounds + 1) l = run g way bound rounds (l.step g way bound) := by
  rw [run, hq]
  rfl

theorem After.run (rounds : Nat) (h : After g way bound selected done l) :
    After g way bound selected (done ++ taken g way bound rounds l) (run g way bound rounds l) := by
  induction rounds generalizing done l with
  | zero => rwa [taken, List.append_nil]
  | succ rounds ih =>
    cases hq : l.queue with
    | nil => rwa [taken_of_nil _ hq, List.append_nil, run_of_nil _ hq]
    | cons a queue =>
      have hnext := h.turn hq fun _ => Iff.rfl
      rw [← step_of_queue hq] at hnext
      rw [taken_of_cons _ hq, run_of_cons _ hq, ← List.singleton_append, ← List.append_assoc]
      exact ih hnext

/-- A search that has not come to rest took an arrival in every round. -/
theorem length_taken (rounds : Nat) :
    (run g way bound rounds l).queue = [] ∨ (taken g way bound rounds l).length = rounds := by
  induction rounds generalizing l with
  | zero => exact .inr rfl
  | succ rounds ih =>
    cases hq : l.queue with
    | nil => exact .inl (by rw [run_of_nil _ hq, hq])
    | cons a queue =>
      rw [run_of_cons _ hq, taken_of_cons _ hq, List.length_cons, Nat.add_right_cancel_iff]
      exact ih

/-- Where a search stands at the start of each round. -/
theorem after_run (g : Graph) (way : Direction) (bound : Option Nat) (selected : List NodeId)
    (rounds : Nat) :
    After g way bound selected (taken g way bound rounds (start g selected))
      (run g way bound rounds (start g selected)) :=
  (After.start g way bound selected).run rounds

/-- Twice the number of nodes is enough for a search to come to rest. -/
theorem queue_run_eq_nil (g : Graph) (way : Direction) (bound : Option Nat) (selected : List NodeId) :
    (run g way bound (2 * g.nodeCount) (start g selected)).queue = [] := by
  rcases length_taken (2 * g.nodeCount) with hrest | hlen
  · exact hrest
  · have hle := (after_run g way bound selected (2 * g.nodeCount)).length_le
    rw [List.length_append, hlen] at hle
    exact List.length_eq_zero_iff.1 (by omega)

/-- At rest, each origin is settled wherever it leads to within the bound. -/
theorem After.settled (h : After g way bound selected done l) (hrest : l.queue = [])
    (hs : origin ∈ selected) (hknown : g.contains origin = true) (hn : Within bound n)
    (hw : Walk (g.Along way) n origin v) : Settled done v origin n := by
  have hlog : done ++ l.queue = done := by rw [hrest, List.append_nil]
  induction n generalizing v with
  | zero =>
    rw [← walk_zero_iff.1 hw, ← hlog]
    exact .inl (h.started origin hs hknown)
  | succ n ih =>
    obtain ⟨u, hu, hstep⟩ := walk_succ_iff_last.1 hw
    -- whatever arrived at the last node but one was passed on
    have hpass : ∀ p, Near done u p n → Settled done v p (n + 1) := by
      rintro p ⟨a, ha, rfl, rfl, hd⟩
      have hp := h.passed a ha (hn.mono (by omega)) v hstep
      rw [hlog] at hp
      exact hp.mono (fun _ hb => hb) (by omega)
    rcases ih (hn.mono (Nat.le_succ n)) hu with hnear | ⟨p, q, hne, hp, hq⟩
    · exact hpass origin hnear
    · rcases hpass p hp with hp | htwo
      · rcases hpass q hq with hq | htwo
        · exact .inr ⟨p, q, hne, hp, hq⟩
        · exact .inr htwo
      · exact .inr htwo

/-- At rest, what origins other than the nodes themselves lead to within the bound is reached. -/
theorem After.mem_reached (h : After g way bound selected done l) (hrest : l.queue = []) :
    v ∈ l.reached ↔ ∃ s ∈ selected, s ≠ v ∧ ∃ n, Within bound n ∧ Walk (g.Along way) n s v := by
  have hlabels := h.labels v
  rw [hrest, List.append_nil] at hlabels
  rw [Labelling.mem_reached, hlabels]
  constructor
  · rintro ⟨origin, hmem, hne⟩
    obtain ⟨a, ha, rfl, rfl⟩ := mem_originsAt.1 hmem
    have hacc := h.accounted a (List.mem_append_left _ ha)
    exact ⟨a.origin, hacc.selected, hne, a.distance, hacc.within, hacc.walk⟩
  · rintro ⟨s, hs, hne, n, hn, hw⟩
    exact (h.settled hrest hs (contains_of_walk hw hne) hn hw).exists_ne hne

end Labelling

/-! ## Selections -/

open Labelling in
theorem mem_selectRelated :
    v ∈ g.selectRelated way selected bound ↔
      ∃ s ∈ selected, s ≠ v ∧ ∃ n, Within bound n ∧ Walk (g.Along way) n s v :=
  (after_run g way bound selected (2 * g.nodeCount)).mem_reached (queue_run_eq_nil g way bound selected)

theorem selectRelated_congr {h : Graph} (hdep : h.Dependency = g.Dependency) :
    h.selectRelated way selected bound = g.selectRelated way selected bound := by
  refine Std.ExtTreeSet.ext_mem fun v => ?_
  rw [mem_selectRelated, mem_selectRelated, along_congr hdep]

theorem mem_selectRelated_iff_related :
    v ∈ g.selectRelated way selected bound ↔
      ∃ s ∈ selected, g.contains s = true ∧ v ∈ g.related way s bound := by
  rw [mem_selectRelated]
  refine exists_congr fun s => and_congr_right fun _ => ?_
  rw [mem_related]
  constructor
  · rintro ⟨hne, n, hn, hw⟩
    exact ⟨contains_of_walk hw hne, Ne.symm hne, n, hn, hw⟩
  · rintro ⟨_, hne, hn⟩
    exact ⟨Ne.symm hne, hn⟩

/-- **Selections are unions.** The dependents of a selection are the descendants of its known nodes,
put together, and what it depends on are their ancestors. So a node, selected or not, is in the
result exactly if a selected node other than itself reaches it within the bound. -/
theorem select_eq_union (g : Graph) (selected : List NodeId) (bound : Option Nat) (v : NodeId) :
    (v ∈ g.selectChildren selected bound ↔
      ∃ s ∈ selected, ∃ found, g.descendants s bound = .ok found ∧ v ∈ found) ∧
    (v ∈ g.selectParents selected bound ↔
      ∃ s ∈ selected, ∃ found, g.ancestors s bound = .ok found ∧ v ∈ found) ∧
    (v ∈ g.selectChildren selected bound ↔
      ∃ s ∈ selected, s ≠ v ∧ ∃ n, Within bound n ∧ Walk g.Dependency n s v) ∧
    (v ∈ g.selectParents selected bound ↔
      ∃ s ∈ selected, s ≠ v ∧ ∃ n, Within bound n ∧ Walk g.Dependency n v s) := by
  refine ⟨?_, ?_, ?_, ?_⟩
  · unfold selectChildren
    rw [mem_selectRelated_iff_related]
    simp [descendants_eq_ok]
  · unfold selectParents
    rw [mem_selectRelated_iff_related]
    simp [ancestors_eq_ok]
  · unfold selectChildren
    rw [mem_selectRelated]
    simp only [walk_forward]
  · unfold selectParents
    rw [mem_selectRelated]
    simp only [walk_backward]

end Lineage.Graph
