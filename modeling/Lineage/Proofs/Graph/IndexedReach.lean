import Lineage.Proofs.Graph.IndexedSearch
import Lineage.Proofs.Graph.Loop

/-!
# Searches by distance in an arena

In an arena ancestors and descendants are found with a queue: each node goes into it once, with the
distance at which it was met first, and the bound is compared with that distance. So the bound means what
it says only if nodes are met by distance. They are because the queue is in order of distance and spans
two distances at most (`Spreads`): whatever a node leads to was met at most one step after it, in whatever
order the arena lists the edges. Every search comes to an end, with the nodes that the search by identities
finds (`Represents.related_eq`), which are those within the bound by the length of a shortest walk
(`related_by_distance`).
-/

namespace Lineage

open Lineage.Graph (Direction Within Distance)

namespace Indexed

variable {A : Arena}

/-! ## The search -/

/-- Where the edges of a node lead this way, as far as their kinds may be followed
(`traversable_neighbors`). -/
def ends (x : Indexed A) (way : Direction) (follow : EdgeKind → Bool) (i : Nat) : List Nat :=
  ((A.edgesAt x.arena way i).filter fun r => follow r.2.kind).map fun r => r.2.far way

/-- A node that waits in the queue, with the distance at which it was met. -/
structure Stop where
  index : Nat
  distance : Nat
deriving DecidableEq, Repr

structure Wave where
  /-- The nodes that were met. -/
  met : Std.HashSet Nat
  /-- The identities of all that were met on the way. -/
  found : NodeSet

/-- Meets the neighbours of a node, unless the bound is reached there (in `bfs`). -/
def Wave.visit (x : Indexed A) (way : Direction) (bound : Option Nat) (w : Wave) (a : Stop) :
    Wave × List Stop :=
  if bound.any (· ≤ a.distance) then (w, [])
  else
    let (new, met) := mark w.met (x.ends way EdgeKind.traversable a.index)
    (⟨met, w.found.insertMany (new.map x.name)⟩, new.map (⟨·, a.distance + 1⟩))

/-- The nodes within the bound of the one at this index, and other than it (`bfs`). -/
def related (x : Indexed A) (way : Direction) (bound : Option Nat) (i : Nat) : Option NodeSet :=
  (drain (Wave.visit x way bound) (A.nodeCount x.arena) ⟨{i}, ∅⟩ [⟨i, 0⟩]).map (·.found)

/-- There is no set among the answers only if the search did not come to an end. -/
def ancestors (x : Indexed A) (id : NodeId) (bound : Option Nat) :
    Except GraphError (Option NodeSet) :=
  x.index id |>.map (x.related .backward bound)

def descendants (x : Indexed A) (id : NodeId) (bound : Option Nat) :
    Except GraphError (Option NodeSet) :=
  x.index id |>.map (x.related .forward bound)

/-! ## Where edges lead -/

variable {x : Indexed A} {g : Graph} {way : Direction} {follow : EdgeKind → Bool} {bound : Option Nat}
  {i j n : Nat} {u v : NodeId}

theorem Represents.mem_ends (hA : A.Lawful) (h : x.Represents g.digraph) (hi : x.Used i) :
    (∃ j ∈ x.ends way follow i, x.name j = v) ↔
      ∃ kind, stepKind? g.digraph way (x.name i) v = some kind ∧ follow kind = true := by
  simp only [← h.exists_edgesAt hA (h.table_name hi), ends, List.mem_map, List.mem_filter]
  constructor
  · rintro ⟨_, ⟨r, ⟨hr, hfollow⟩, rfl⟩, hv⟩
    exact ⟨_, ⟨r, hr, hv, rfl⟩, hfollow⟩
  · rintro ⟨_, ⟨r, hr, hv, rfl⟩, hfollow⟩
    exact ⟨_, ⟨r, ⟨hr, hfollow⟩, rfl⟩, hv⟩

theorem Sound.used_of_mem_ends (hA : A.Lawful) (h : x.Sound) (hj : j ∈ x.ends way follow i) :
    x.Used j := by
  unfold Indexed.ends at hj
  obtain ⟨⟨e, a⟩, hr, rfl⟩ := List.mem_map.1 hj
  obtain ⟨he, -⟩ := (hA.mem_edgesAt _ _ _ _ _).1 (List.mem_filter.1 hr).1
  obtain ⟨⟨s, hs⟩, t, ht⟩ := h.ends e a he
  cases way with
  | forward => exact h.isSome_node? ht
  | backward => exact h.isSome_node? hs

theorem along_iff_stepKind? :
    g.Along way u v ↔ ∃ kind, stepKind? g.digraph way u v = some kind ∧ kind.traversable = true := by
  have hdep : ∀ a b, g.Dependency a b ↔ ∃ kind, g.kind? a b = some kind ∧ kind.traversable = true := by
    intro a b
    rw [← Graph.follows_iff, Graph.follows, Option.any_eq_true]
  cases way with
  | forward => exact Graph.along_forward.trans (hdep u v)
  | backward => exact Graph.along_backward.trans (hdep v u)

theorem Represents.mem_ends_traversable (hA : A.Lawful) (h : x.Represents g.digraph) (hi : x.Used i) :
    (∃ j ∈ x.ends way EdgeKind.traversable i, x.name j = v) ↔ g.Along way (x.name i) v := by
  rw [h.mem_ends hA hi, along_iff_stepKind?]

/-! ## What has been met -/

variable {w : Wave} {log done queue : List Stop} {a : Stop} {new : List Nat} {met : Std.HashSet Nat}

/-- All that was put into the queue of a search from `i`, in order: each node once, at the length of some
walk, and nothing behind what is further away. -/
structure Logged (x : Indexed A) (g : Graph) (way : Direction) (bound : Option Nat) (i : Nat)
    (log : List Stop) (w : Wave) : Prop where
  used : ∀ a ∈ log, x.Used a.index
  distinct : (log.map (·.index)).Nodup
  met : ∀ j, j ∈ w.met ↔ j ∈ log.map (·.index)
  found : ∀ v, v ∈ w.found ↔ ∃ a ∈ log, a.index ≠ i ∧ x.name a.index = v
  first : ⟨i, 0⟩ ∈ log
  within : ∀ a ∈ log, Within bound a.distance
  walk : ∀ a ∈ log, Walk (g.Along way) a.distance (x.name i) (x.name a.index)
  sorted : log.Pairwise (·.distance ≤ ·.distance)

/-- More nodes can be met at a distance that none before exceeds. -/
theorem Logged.append (h : x.Logged g way bound i log w) (hnew : new.Nodup)
    (hfresh : ∀ j ∈ new, j ∉ w.met) (hmet : ∀ j, j ∈ met ↔ j ∈ w.met ∨ j ∈ new)
    (hused : ∀ j ∈ new, x.Used j) (hwithin : Within bound n)
    (hwalk : ∀ j ∈ new, Walk (g.Along way) n (x.name i) (x.name j))
    (hlast : ∀ a ∈ log, a.distance ≤ n) :
    x.Logged g way bound i (log ++ new.map (⟨·, n⟩)) ⟨met, w.found.insertMany (new.map x.name)⟩ := by
  have hindex : (log ++ new.map (Stop.mk · n)).map Stop.index = log.map Stop.index ++ new := by
    simp [Function.comp_def]
  -- the first node was met, so it is not new
  have hne : ∀ j ∈ new, j ≠ i := by
    rintro j hj rfl
    exact hfresh j hj ((h.met j).2 (List.mem_map.2 ⟨_, h.first, rfl⟩))
  refine ⟨?_, ?_, fun j => ?_, fun v => ?_, List.mem_append_left _ h.first, ?_, ?_, ?_⟩
  · exact List.forall_mem_append.2 ⟨h.used, List.forall_mem_map.2 hused⟩
  · rw [hindex]
    refine List.nodup_append'.2 ⟨h.distinct, hnew, fun j hj hj' => ?_⟩
    exact hfresh j hj' ((h.met j).2 hj)
  · rw [hindex, List.mem_append, hmet, h.met]
  · rw [Graph.mem_insertMany, h.found, List.mem_map]
    simp only [List.mem_append, List.mem_map, or_and_right, exists_or]
    refine or_congr_right ?_
    constructor
    · rintro ⟨j, hj, rfl⟩
      exact ⟨_, ⟨j, hj, rfl⟩, hne j hj, rfl⟩
    · rintro ⟨_, ⟨j, hj, rfl⟩, _, hv⟩
      exact ⟨j, hj, hv⟩
  · exact List.forall_mem_append.2 ⟨h.within, List.forall_mem_map.2 fun _ _ => hwithin⟩
  · exact List.forall_mem_append.2 ⟨h.walk, List.forall_mem_map.2 hwalk⟩
  · refine List.pairwise_append.2 ⟨h.sorted, ?_, fun a ha b hb => ?_⟩
    · exact List.pairwise_map.2 (List.pairwise_of_forall fun _ _ => Nat.le_refl n)
    · obtain ⟨j, -, rfl⟩ := List.mem_map.1 hb
      exact hlast a ha

/-- Where a search stands that took the entries `done`: the queue spans two distances at most, and whatever
a node leads to was met at most one step after it, as far as the bound allows. -/
structure Spreads (x : Indexed A) (g : Graph) (way : Direction) (bound : Option Nat) (i : Nat)
    (done : List Stop) (w : Wave) (queue : List Stop) : Prop
    extends Logged x g way bound i (done ++ queue) w where
  span : ∀ a ∈ queue, ∀ b ∈ done ++ queue, b.distance ≤ a.distance + 1
  passed : ∀ a ∈ done, Within bound (a.distance + 1) → ∀ v, g.Along way (x.name a.index) v →
    ∃ b ∈ done ++ queue, x.name b.index = v ∧ b.distance ≤ a.distance + 1

theorem Spreads.start (hi : x.Used i) : x.Spreads g way bound i [] ⟨{i}, ∅⟩ [⟨i, 0⟩] where
  used := by simpa using hi
  distinct := List.nodup_singleton i
  met j := by rw [Std.HashSet.singleton_eq_insert, mem_hashSet_insert]; simp
  found v := by simp
  first := List.mem_singleton_self _
  within := by simp [Within]
  walk := by simpa using Walk.nil (x.name i)
  sorted := List.pairwise_singleton _ _
  span := by simp
  passed := by simp

/-- One round at a node where the bound is reached. -/
theorem Spreads.skip (h : x.Spreads g way bound i done w (a :: queue))
    (hbound : ¬ Within bound (a.distance + 1)) : x.Spreads g way bound i (done ++ [a]) w queue := by
  have hlog : (done ++ [a]) ++ queue = done ++ a :: queue := by
    rw [List.append_assoc, List.singleton_append]
  refine ⟨hlog ▸ h.toLogged, ?_, ?_⟩
  · rw [hlog]
    exact fun b hb => h.span b (List.mem_cons_of_mem a hb)
  · rw [hlog]
    refine List.forall_mem_append.2 ⟨h.passed, fun b hb hwithin => ?_⟩
    rw [List.mem_singleton.1 hb] at hwithin
    exact absurd hwithin hbound

/-- One round at a node that is passed on from. -/
theorem Spreads.pass (hA : A.Lawful) (hx : x.Represents g.digraph)
    (h : x.Spreads g way bound i done w (a :: queue)) (hbound : Within bound (a.distance + 1))
    (hnew : mark w.met (x.ends way EdgeKind.traversable a.index) = (new, met)) :
    x.Spreads g way bound i (done ++ [a]) ⟨met, w.found.insertMany (new.map x.name)⟩
      (queue ++ new.map (⟨·, a.distance + 1⟩)) := by
  have hmem : ∀ j, j ∈ new ↔ j ∈ x.ends way EdgeKind.traversable a.index ∧ j ∉ w.met := fun j => by
    rw [← mem_mark, hnew]
  have hmet : ∀ j, j ∈ met ↔ j ∈ w.met ∨ j ∈ x.ends way EdgeKind.traversable a.index := fun j => by
    rw [← mem_marked, hnew]
  have ha : a ∈ done ++ a :: queue := List.mem_append_right _ List.mem_cons_self
  have hspan := h.span a List.mem_cons_self
  -- what waits behind `a` is no nearer than `a`
  have hbehind : ∀ b ∈ queue, a.distance ≤ b.distance :=
    (List.pairwise_cons.1 (List.pairwise_append.1 h.sorted).2.1).1
  have hlog : x.Logged g way bound i ((done ++ a :: queue) ++ new.map (⟨·, a.distance + 1⟩))
      ⟨met, w.found.insertMany (new.map x.name)⟩ := by
    refine h.toLogged.append ?_ (fun j hj => ((hmem j).1 hj).2) (fun j => ?_) (fun j hj => ?_) hbound
      (fun j hj => ?_) hspan
    · have hnodup : (mark w.met (x.ends way EdgeKind.traversable a.index)).1.Nodup := nodup_mark
      rwa [hnew] at hnodup
    · rw [hmet, hmem]
      tauto
    · exact hx.used_of_mem_ends hA ((hmem j).1 hj).1
    · refine (h.walk a ha).snoc ?_
      exact (hx.mem_ends_traversable hA (h.used a ha)).1 ⟨j, ((hmem j).1 hj).1, rfl⟩
  refine ⟨by rw [taken_append]; exact hlog, ?_, ?_⟩
  · rw [taken_append, List.forall_mem_append]
    constructor
    · intro b hb
      refine List.forall_mem_append.2 ⟨h.span b (List.mem_cons_of_mem a hb), List.forall_mem_map.2 ?_⟩
      exact fun _ _ => Nat.succ_le_succ (hbehind b hb)
    · refine List.forall_mem_map.2 fun _ _ => ?_
      refine List.forall_mem_append.2 ⟨fun b hb => Nat.le_succ_of_le (hspan b hb), List.forall_mem_map.2 ?_⟩
      exact fun _ _ => Nat.le_succ _
  · rw [taken_append, List.forall_mem_append]
    constructor
    · intro b hb hwithin v hv
      obtain ⟨c, hc, hname, hd⟩ := h.passed b hb hwithin v hv
      exact ⟨c, List.mem_append_left _ hc, hname, hd⟩
    · intro b hb _ v hv
      rw [List.mem_singleton.1 hb] at hv ⊢
      obtain ⟨j, hj, rfl⟩ := (hx.mem_ends_traversable hA (h.used a ha)).2 hv
      by_cases hold : j ∈ w.met
      · obtain ⟨c, hc, rfl⟩ := List.mem_map.1 ((h.met j).1 hold)
        exact ⟨c, List.mem_append_left _ hc, rfl, hspan c hc⟩
      · exact ⟨⟨j, a.distance + 1⟩,
          List.mem_append_right _ (List.mem_map_of_mem ((hmem j).2 ⟨hj, hold⟩)), rfl, Nat.le_refl _⟩

theorem Spreads.visit (hA : A.Lawful) (hx : x.Represents g.digraph)
    (h : x.Spreads g way bound i done w (a :: queue)) :
    x.Spreads g way bound i (done ++ [a]) (w.visit x way bound a).1
      (queue ++ (w.visit x way bound a).2) := by
  unfold Wave.visit
  split
  · rename_i hreached
    rw [List.append_nil]
    exact h.skip fun hwithin => Graph.within_succ_iff.1 hwithin hreached
  · rename_i hreached
    exact h.pass hA hx (Graph.within_succ_iff.2 hreached) rfl

/-- There are no more indices in use than nodes. -/
theorem length_le_nodeCount (hA : A.Lawful) {indices : List Nat} (hdistinct : indices.Nodup)
    (hused : ∀ j ∈ indices, x.Used j) : indices.length ≤ A.nodeCount x.arena := by
  have hsub : indices ⊆ A.nodeIndices x.arena := fun j hj => (hA.mem_nodeIndices _ _).2 (hused j hj)
  rw [hA.nodeCount_eq]
  exact (List.subperm_of_subset hdistinct hsub).length_le

theorem Logged.length_le (hA : A.Lawful) (h : x.Logged g way bound i log w) :
    log.length ≤ A.nodeCount x.arena := by
  rw [← List.length_map (·.index)]
  exact length_le_nodeCount hA h.distinct (List.forall_mem_map.2 h.used)

/-! ## What is found -/

/-- When no node waits, whatever walks lead to within the bound was met, no later than they get there. -/
theorem Spreads.exists_of_walk (h : x.Spreads g way bound i done w [])
    (hw : Walk (g.Along way) n (x.name i) v) (hn : Within bound n) :
    ∃ a ∈ done, x.name a.index = v ∧ a.distance ≤ n := by
  have hlog : done ++ [] = done := List.append_nil done
  induction n generalizing v with
  | zero =>
    rw [← walk_zero_iff.1 hw]
    exact ⟨_, hlog ▸ h.first, rfl, Nat.le_refl 0⟩
  | succ n ih =>
    obtain ⟨u, hu, hstep⟩ := walk_succ_iff_last.1 hw
    obtain ⟨a, ha, rfl, hd⟩ := ih hu (hn.mono (Nat.le_succ n))
    obtain ⟨b, hb, hv, hd'⟩ := h.passed a ha (hn.mono (Nat.succ_le_succ hd)) v hstep
    exact ⟨b, hlog ▸ hb, hv, by omega⟩

/-- A search in an arena comes to an end, and finds what the search by identities finds. -/
theorem Represents.related_eq (hA : A.Lawful) (h : x.Represents g.digraph) (hi : x.Used i) :
    x.related way bound i = some (g.related way (x.name i) bound) := by
  obtain ⟨last, done, hrun, hend⟩ := exists_drain (x.Spreads g way bound i) (A.nodeCount x.arena)
    (fun _ _ _ _ hs => hs.visit hA h) (fun _ _ _ hs => hs.toLogged.length_le hA) (Spreads.start hi)
    (by simp)
  have hlog : done ++ [] = done := List.append_nil done
  unfold related
  rw [hrun, Option.map_some, Option.some.injEq]
  refine Std.ExtTreeSet.ext_mem fun v => ?_
  rw [hend.found, Graph.mem_related]
  constructor
  · rintro ⟨a, ha, hne, rfl⟩
    refine ⟨fun heq => hne ((h.name_inj (hend.used a ha) hi).1 heq), a.distance, hend.within a ha, ?_⟩
    exact hend.walk a ha
  · rintro ⟨hne, n, hn, hw⟩
    obtain ⟨a, ha, rfl, -⟩ := hend.exists_of_walk hw hn
    exact ⟨a, hlog.symm ▸ ha, fun heq => hne (by rw [heq]), rfl⟩

/-- The answer to a query by identity is that of the graph, an unknown identity being refused alike. -/
theorem Represents.map_index (h : x.Represents g.digraph) {α : Type} {f : Nat → α} {k : NodeId → α}
    (hf : ∀ i, x.Used i → f i = k (x.name i)) : (x.index u).map f = (g.known u).map fun _ => k u := by
  unfold Graph.known
  cases hu : x.table[u]? with
  | none =>
    have hknown : ¬ g.contains u = true := fun hc => h.not_mem_ids hu (Graph.mem_digraph.2 hc)
    rw [index_of_unknown hu, if_neg hknown]
    rfl
  | some i =>
    rw [index_of_known hu, if_pos (Graph.mem_digraph.1 (h.mem_ids hu))]
    have hi := hf i (h.isSome_node? hu)
    rw [h.name_eq hu] at hi
    simp only [Except.map, hi]

theorem Represents.map_related (hA : A.Lawful) (h : x.Represents g.digraph) :
    (x.index u).map (x.related way bound) = ((g.known u).map fun _ => g.related way u bound).map some := by
  rw [h.map_index (k := fun u => some (g.related way u bound)) fun i hi => h.related_eq hA hi]
  cases g.known u <;> rfl

end Indexed

/-! ## By distance -/

/-- **Ancestors and descendants are found by distance.** The descendants of a node within a bound are the
others whose shortest walk from it over dependencies the bound allows, and its ancestors are the same over
reversed dependencies; so `v` is a descendant of `u` exactly if `u` is an ancestor of `v`, for the same
bound. After any edits that lead to this graph, the searches in an arena come to an end with these
answers. -/
theorem related_by_distance (g : Graph) (bound : Option Nat) :
    (∀ u, g.contains u = true → ∃ found, g.descendants u bound = .ok found ∧
      ∀ v, v ∈ found ↔ v ≠ u ∧ ∃ n, Distance g.Dependency u v n ∧ Within bound n) ∧
    (∀ u, g.contains u = true → ∃ found, g.ancestors u bound = .ok found ∧
      ∀ v, v ∈ found ↔ v ≠ u ∧ ∃ n, Distance (fun a b => g.Dependency b a) u v n ∧ Within bound n) ∧
    (∀ u v, (∃ found, g.descendants u bound = .ok found ∧ v ∈ found) ↔
      ∃ found, g.ancestors v bound = .ok found ∧ u ∈ found) ∧
    ∀ A : Arena, A.Lawful → ∀ edits : List Edit, (Edit.runAll Graph.apply ∅ edits).2 = g → ∀ u,
      let x := (Edit.runAll Indexed.apply (Indexed.empty : Indexed A) edits).2
      x.descendants u bound = (g.descendants u bound).map some ∧
        x.ancestors u bound = (g.ancestors u bound).map some := by
  refine ⟨fun u hu => ?_, fun u hu => ?_, fun u v => ?_, ?_⟩
  · refine ⟨_, Graph.descendants_eq_ok.2 ⟨hu, rfl⟩, fun v => ?_⟩
    rw [Graph.mem_related, Graph.exists_walk_within_iff, Graph.along_forward_eq]
  · refine ⟨_, Graph.ancestors_eq_ok.2 ⟨hu, rfl⟩, fun v => ?_⟩
    rw [Graph.mem_related, Graph.exists_walk_within_iff, Graph.along_backward_eq]
  · simp only [Graph.descendants_eq_ok, Graph.ancestors_eq_ok, and_assoc, exists_and_left,
      exists_eq_left', Graph.mem_related_comm]
    refine and_congr_left fun hmem => ?_
    obtain ⟨hv, hu⟩ := Graph.contains_of_mem_related hmem
    exact iff_of_true hu hv
  · rintro A hA edits rfl u x
    have hx := represents_runAll hA edits
    exact ⟨hx.map_related hA, hx.map_related hA⟩

/-- Round a cycle, `c` is one dependency before `a` and two after it: with a bound of one it is an ancestor
only, and `a` is a descendant of it. The test `t` of `a` is none. -/
theorem related_by_distance_round_cycle :
    let edits : List Edit :=
      [.ofEdges [("a", "b"), ("b", "c"), ("c", "a"), ("a", "t")], .removeNode "t", .addNode "t",
        .addEdge "a" "t" .parentTest]
    let g := (Edit.runAll Graph.apply ∅ edits).2
    let x := (Edit.runAll Indexed.apply (Indexed.empty : Indexed slotArena) edits).2
    slotArena.Lawful ∧ g.contains "a" = true ∧
      (∃ n, Distance (fun u v => g.Dependency v u) "a" "c" n ∧ Within (some 1) n) ∧
      (¬ ∃ n, Distance g.Dependency "a" "c" n ∧ Within (some 1) n) ∧
      (∃ found, g.descendants "c" (some 1) = .ok found ∧ "a" ∈ found) ∧
      x.descendants "a" (some 1) = .ok (some {"b"}) ∧ x.ancestors "a" (some 1) = .ok (some {"c"}) := by
  intro edits g x
  have hdown : g.descendants "a" (some 1) = .ok {"b"} := by decide +kernel
  have hup : g.ancestors "a" (some 1) = .ok {"c"} := by decide +kernel
  have ha : g.contains "a" = true := by decide +kernel
  obtain ⟨hdesc, hanc, hcomm, harena⟩ := related_by_distance g (some 1)
  obtain ⟨harena_down, harena_up⟩ := harena slotArena slotArena_lawful edits rfl "a"
  obtain ⟨_, hfound, hmem_down⟩ := hdesc "a" ha
  obtain rfl := Except.ok.inj (hdown.symm.trans hfound)
  obtain ⟨_, hfound', hmem_up⟩ := hanc "a" ha
  obtain rfl := Except.ok.inj (hup.symm.trans hfound')
  have hc : "c" ∈ ({"c"} : NodeSet) := Graph.mem_singleton.2 rfl
  have hfar : "c" ∉ ({"b"} : NodeSet) := fun h => absurd (Graph.mem_singleton.1 h) (by decide)
  refine ⟨slotArena_lawful, ha, ((hmem_up "c").1 hc).2, ?_, (hcomm "c" "a").2 ⟨_, hup, hc⟩, ?_, ?_⟩
  · exact fun hn => hfar ((hmem_down "c").2 ⟨by decide, hn⟩)
  · rw [harena_down, hdown]
    rfl
  · rw [harena_up, hup]
    rfl

end Lineage
