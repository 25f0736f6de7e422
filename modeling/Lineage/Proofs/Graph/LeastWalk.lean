import Lineage.Proofs.Graph.Cycle
import Lineage.Proofs.Graph.Digraph
import Mathlib.Order.Bounds.Basic

/-!
# Which cycle is found

A graph can have many cycles, and `findCycle` answers with one of them. Call a node bad if it leads to a
cycle. The search finishes a node exactly if it is not bad (`bad_of_visit_error`), so at a bad node it
passes over all successors before the least bad one and goes on from that. Its path is therefore the walk
from the least bad node over least bad successors (`LeastWalk`), and what it answers with is the loop in
which that walk ends (`findCycle_eq_some_iff`). So it depends on the edges only (`findCycle_congr`).
-/

namespace Lineage.Graph

variable {g g' : Graph} {path walk walk' before members members' : List NodeId}
  {finished : NodeSet} {id next meet u v w : NodeId} {fuel : Nat}

/-! ## The walk -/

/-- A node that leads to a cycle or lies on one. -/
def Bad (g : Graph) (u : NodeId) : Prop :=
  ∃ v, Relation.ReflTransGen g.Edge u v ∧ Relation.TransGen g.Edge v v

/-- The step from a node to the least of its bad successors. -/
def LeastStep (g : Graph) (u v : NodeId) : Prop := IsLeast {v | g.Edge u v ∧ g.Bad v} v

/-- A walk from the least bad node over least bad successors. -/
structure LeastWalk (g : Graph) (walk : List NodeId) : Prop where
  start : ∀ u ∈ walk.head?, IsLeast {u | g.Bad u} u
  steps : walk.IsChain g.LeastStep

/-- The walk of least bad nodes, up to the first that it meets twice; the members are those from its
first visit there on. -/
def LeastLoop (g : Graph) (members : List NodeId) : Prop :=
  ∃ walk meet, g.LeastWalk (walk ++ [meet]) ∧ walk.Nodup ∧ meet ∈ walk ∧
    members = walk.dropWhile (· != meet)

/-! ### Bad nodes -/

theorem Bad.of_edge (h : g.Bad v) (he : g.Edge u v) : g.Bad u := by
  obtain ⟨w, hw, hc⟩ := h
  exact ⟨w, .head he hw, hc⟩

theorem bad_of_cycle (h : Relation.TransGen g.Edge u u) : g.Bad u := ⟨u, .refl, h⟩

theorem Bad.exists_succ (h : g.Bad u) : ∃ v, g.Edge u v ∧ g.Bad v := by
  obtain ⟨w, hw, hc⟩ := h
  rcases Relation.ReflTransGen.cases_head hw with rfl | ⟨v, he, hv⟩
  · obtain ⟨v, he, hv⟩ := Relation.TransGen.head'_iff.1 hc
    exact ⟨v, he, u, hv, hc⟩
  · exact ⟨v, he, w, hv, hc⟩

theorem Bad.contains (h : g.Bad u) : g.contains u = true := by
  obtain ⟨v, he, -⟩ := h.exists_succ
  exact he.source

theorem Clean.not_bad (h : Clean g finished) (hu : u ∈ finished) : ¬ g.Bad u := by
  rintro ⟨v, hv, hc⟩
  exact h.acyclic v (h.mem_of_path hu hv) hc

/-! ### The walk is determined -/

theorem LeastStep.unique (h : g.LeastStep u v) (h' : g.LeastStep u w) : v = w := IsLeast.unique h h'

/-- Of two chains from one start, where each step is determined, one continues the other. -/
theorem prefix_or_prefix {r : NodeId → NodeId → Prop} (hr : ∀ a b c, r a b → r a c → b = c) {u : NodeId}
    {l l' : List NodeId} (h : (u :: l).IsChain r) (h' : (u :: l').IsChain r) : l <+: l' ∨ l' <+: l := by
  induction l generalizing u l' with
  | nil => exact .inl (List.nil_prefix)
  | cons v l ih =>
    cases l' with
    | nil => exact .inr (List.nil_prefix)
    | cons w l' =>
      rw [List.isChain_cons_cons] at h h'
      obtain rfl := hr u v w h.1 h'.1
      exact (ih h.2 h'.2).imp (List.prefix_cons_inj v).2 (List.prefix_cons_inj v).2

theorem LeastWalk.prefix_or_prefix (h : g.LeastWalk walk) (h' : g.LeastWalk walk') :
    walk <+: walk' ∨ walk' <+: walk := by
  cases walk with
  | nil => exact .inl List.nil_prefix
  | cons u l =>
    cases walk' with
    | nil => exact .inr List.nil_prefix
    | cons u' l' =>
      obtain rfl : u = u' := IsLeast.unique (h.start u rfl) (h'.start u' rfl)
      exact (Graph.prefix_or_prefix (fun _ _ _ h h' => h.unique h') h.steps h'.steps).imp
        (List.prefix_cons_inj u).2 (List.prefix_cons_inj u).2

/-- A walk that came back to a node does not go on without repetitions. -/
theorem eq_of_prefix_of_mem {a b : NodeId} (h : walk ++ [a] <+: walk' ++ [b]) (ha : a ∈ walk)
    (hnodup : walk'.Nodup) : walk = walk' ∧ a = b := by
  obtain ⟨rest, hrest⟩ := h
  rcases List.eq_nil_or_concat rest with rfl | ⟨rest, c, rfl⟩
  · rw [List.append_nil] at hrest
    obtain ⟨hwalk, hlast⟩ := List.append_inj' hrest rfl
    exact ⟨hwalk, by simpa using hlast⟩
  · -- otherwise `a` stands in `walk'` a second time
    rw [List.concat_eq_append, ← List.append_assoc] at hrest
    obtain ⟨rfl, -⟩ := List.append_inj' hrest rfl
    rw [List.append_assoc] at hnodup
    exact absurd rfl ((List.nodup_append.1 hnodup).2.2 a ha a (by simp))

theorem LeastLoop.unique (h : g.LeastLoop members) (h' : g.LeastLoop members') : members = members' := by
  obtain ⟨walk, meet, hwalk, hnodup, hmeet, rfl⟩ := h
  obtain ⟨walk', meet', hwalk', hnodup', hmeet', rfl⟩ := h'
  rcases hwalk.prefix_or_prefix hwalk' with hpre | hpre
  · obtain ⟨rfl, rfl⟩ := eq_of_prefix_of_mem hpre hmeet hnodup'
    rfl
  · obtain ⟨rfl, rfl⟩ := eq_of_prefix_of_mem hpre hmeet' hnodup
    rfl

/-! ### The loop is a cycle -/

theorem LeastStep.edge (h : g.LeastStep u v) : g.Edge u v := h.1.1

theorem dropWhile_eq_of_mem (h : meet ∈ walk) :
    ∃ front back, walk = front ++ meet :: back ∧ walk.dropWhile (· != meet) = meet :: back := by
  obtain ⟨front, back, rfl, hnew⟩ := List.eq_append_cons_of_mem h
  refine ⟨front, back, rfl, ?_⟩
  rw [List.dropWhile_append_of_pos fun a ha => bne_iff_ne.2 (ne_of_mem_of_not_mem ha hnew)]
  simp

theorem LeastLoop.isCycle (h : g.LeastLoop members) : members.Nodup ∧ g.IsCycle members := by
  obtain ⟨walk, meet, hwalk, hnodup, hmeet, rfl⟩ := h
  obtain ⟨front, back, rfl, hdrop⟩ := dropWhile_eq_of_mem hmeet
  rw [hdrop]
  refine ⟨(List.nodup_append.1 hnodup).2.1, List.cons_ne_nil _ _, ?_⟩
  have hchain := hwalk.steps.imp fun _ _ => LeastStep.edge
  rw [List.append_assoc] at hchain
  exact (List.isChain_append.1 hchain).2.1

/-! ## The search follows the walk -/

/-- What the search does about one node that the end of its path leads to. -/
def visit (g : Graph) (fuel : Nat) (path : List NodeId) (finished : NodeSet) (next : NodeId) :
    Except (List NodeId) NodeSet :=
  if path.contains next then .error (pathFrom path next)
  else if finished.contains next then .ok finished
  else g.explore fuel path finished next

theorem explore_succ :
    g.explore (fuel + 1) path finished id = do
      let done ← (g.successors id).foldlM (g.visit fuel (id :: path)) finished
      return done.insert id := rfl

/-- The answer after all roots. -/
def answerOf : Except (List NodeId) NodeSet → Option (List NodeId)
  | .error members => some members
  | .ok _ => none

theorem findCycle_eq : g.findCycle = answerOf (g.nodes.foldlM (g.visit g.nodeCount []) ∅) := rfl

theorem visit_of_mem (h : next ∈ path) :
    g.visit fuel path finished next = .error (pathFrom path next) := by
  unfold visit
  rw [if_pos (List.contains_iff_mem.2 h)]

theorem visit_of_finished (hnew : next ∉ path) (h : next ∈ finished) :
    g.visit fuel path finished next = .ok finished := by
  unfold visit
  rw [if_neg (by simpa using hnew), if_pos (Std.ExtTreeSet.contains_iff_mem.2 h)]

theorem visit_of_new (hnew : next ∉ path) (h : next ∉ finished) :
    g.visit fuel path finished next = g.explore fuel path finished next := by
  unfold visit
  rw [if_neg (by simpa using hnew), if_neg fun hc => h (Std.ExtTreeSet.contains_iff_mem.1 hc)]

/-! ### Only bad nodes end the search -/

/-- A path leads from each of its nodes to its end. -/
theorem transGen_of_mem_path (hpath : (next :: path).IsChain fun a b => g.Edge b a) (hu : u ∈ path) :
    Relation.TransGen g.Edge u next := by
  have : IsTrans NodeId fun a b => Relation.TransGen g.Edge b a := ⟨fun _ _ _ h h' => h'.trans h⟩
  have hall : (next :: path).Pairwise fun a b => Relation.TransGen g.Edge b a :=
    List.isChain_iff_pairwise.1 (hpath.imp fun _ _ => .single)
  exact List.rel_of_pairwise_cons hall hu

theorem exists_of_foldlM_error {f : NodeSet → NodeId → Except (List NodeId) NodeSet} {goals : List NodeId}
    (h : goals.foldlM f finished = .error members) : ∃ u ∈ goals, ∃ s, f s u = .error members := by
  induction goals generalizing finished with
  | nil => cases h
  | cons goal goals ih =>
    rw [List.foldlM_cons] at h
    cases hr : f finished goal with
    | error e =>
      rw [hr] at h
      cases h
      exact ⟨goal, List.mem_cons_self, finished, hr⟩
    | ok done =>
      rw [hr] at h
      obtain ⟨u, hu, s, hs⟩ := ih h
      exact ⟨u, List.mem_cons_of_mem _ hu, s, hs⟩

theorem mem_or_explore_of_visit_error (h : g.visit fuel path finished next = .error members) :
    next ∈ path ∨ g.explore fuel path finished next = .error members := by
  by_cases hback : next ∈ path
  · exact .inl hback
  · by_cases hdone : next ∈ finished
    · rw [visit_of_finished hback hdone] at h
      cases h
    · rw [visit_of_new hback hdone] at h
      exact .inr h

theorem bad_of_visit_error (hpath : (next :: path).IsChain fun a b => g.Edge b a)
    (h : g.visit fuel path finished next = .error members) : g.Bad next := by
  induction fuel generalizing path finished next members with
  | zero =>
    rcases mem_or_explore_of_visit_error h with hback | hexplore
    · exact bad_of_cycle (transGen_of_mem_path hpath hback)
    · cases hexplore
  | succ fuel ih =>
    rcases mem_or_explore_of_visit_error h with hback | hexplore
    · exact bad_of_cycle (transGen_of_mem_path hpath hback)
    · rw [explore_succ] at hexplore
      cases hsweep : (g.successors next).foldlM (g.visit fuel (next :: path)) finished with
      | ok done =>
        rw [hsweep] at hexplore
        cases hexplore
      | error found =>
        obtain ⟨v, hv, s, hs⟩ := exists_of_foldlM_error hsweep
        have hstep : g.Edge next v := mem_successors.1 hv
        exact (ih (List.isChain_cons_cons.2 ⟨hstep, hpath⟩) hs).of_edge hstep

/-! ### At a bad node the search goes on -/

theorem OpenPath.extend (h : OpenPath g path) (hpath : (next :: path).IsChain fun a b => g.Edge b a)
    (hknown : g.contains next = true) (hnew : next ∉ path) : OpenPath g (next :: path) :=
  ⟨hpath, List.nodup_cons.2 ⟨hnew, h.nodup⟩, List.forall_mem_cons.2 ⟨hknown, h.known⟩⟩

theorem visit_spec (hopen : OpenPath g path) (hpath : (next :: path).IsChain fun a b => g.Edge b a)
    (hknown : g.contains next = true) (hclean : Clean g finished) (havoid : ∀ u ∈ path, u ∉ finished)
    (hfuel : g.nodeCount ≤ fuel + path.length) :
    Explores g path finished [next] (g.visit fuel path finished next) := by
  by_cases hback : next ∈ path
  · rw [visit_of_mem hback]
    cases path with
    | nil => simp at hback
    | cons id path => exact isCycle_pathFrom hopen.chain (List.isChain_cons_cons.1 hpath).1 hback
  · by_cases hdone : next ∈ finished
    · rw [visit_of_finished hback hdone]
      exact ⟨hclean, fun _ hu => hu, by simpa using hdone, havoid⟩
    · rw [visit_of_new hback hdone]
      exact explore_spec (hopen.extend hpath hknown hback) hclean (List.forall_mem_cons.2 ⟨hdone, havoid⟩)
        hfuel

/-- In a sorted list with a bad member, the least bad one stands behind members that are not bad. -/
theorem exists_least_bad {l : List NodeId} (hl : l.Pairwise (· < ·)) (h : ∃ v ∈ l, g.Bad v) :
    ∃ before v after, l = before ++ v :: after ∧ (∀ u ∈ before, ¬ g.Bad u) ∧
      IsLeast {v | v ∈ l ∧ g.Bad v} v := by
  induction l with
  | nil => simp at h
  | cons a l ih =>
    rw [List.pairwise_cons] at hl
    by_cases ha : g.Bad a
    · refine ⟨[], a, l, rfl, by simp, ⟨List.mem_cons_self, ha⟩, ?_⟩
      rintro v ⟨hv, -⟩
      rcases List.mem_cons.1 hv with rfl | hv
      · exact le_refl _
      · exact le_of_lt (hl.1 v hv)
    · have hrest : ∃ v ∈ l, g.Bad v := by
        obtain ⟨v, hv, hbad⟩ := h
        rcases List.mem_cons.1 hv with rfl | hv
        · exact absurd hbad ha
        · exact ⟨v, hv, hbad⟩
      obtain ⟨before, v, after, rfl, hbefore, ⟨hv, hbad⟩, hleast⟩ := ih hl.2 hrest
      refine ⟨a :: before, v, after, rfl, List.forall_mem_cons.2 ⟨ha, hbefore⟩,
        ⟨List.mem_cons_of_mem _ hv, hbad⟩, ?_⟩
      rintro w ⟨hw, hwbad⟩
      rcases List.mem_cons.1 hw with rfl | hw
      · exact absurd hwbad ha
      · exact hleast ⟨hw, hwbad⟩

/-- Nodes that are not bad are finished one after the other; at the first bad one the search ends. -/
theorem foldlM_visit_of_bad (after : List NodeId) (hopen : OpenPath g path)
    (hpath : ∀ u ∈ before, (u :: path).IsChain fun a b => g.Edge b a)
    (hknown : ∀ u ∈ before, g.contains u = true) (hbefore : ∀ u ∈ before, ¬ g.Bad u)
    (hclean : Clean g finished) (havoid : ∀ u ∈ path, u ∉ finished)
    (hfuel : g.nodeCount ≤ fuel + path.length)
    (hv : ∀ s, Clean g s → (∀ u ∈ path, u ∉ s) →
      ∃ members, g.visit fuel path s v = .error members ∧ g.LeastLoop members) :
    ∃ members, (before ++ v :: after).foldlM (g.visit fuel path) finished = .error members ∧
      g.LeastLoop members := by
  have hspec : Explores g path finished before (before.foldlM (g.visit fuel path) finished) :=
    explores_foldlM (fun s hs hd u hu => visit_spec hopen (hpath u hu) (hknown u hu) hs hd hfuel) hclean havoid
  rw [List.foldlM_append]
  cases hr : before.foldlM (g.visit fuel path) finished with
  | error found =>
    obtain ⟨u, hu, s, hs⟩ := exists_of_foldlM_error hr
    exact absurd (bad_of_visit_error (hpath u hu) hs) (hbefore u hu)
  | ok done =>
    rw [hr] at hspec
    obtain ⟨members, herror, hloop⟩ := hv done hspec.1 hspec.2.2.2
    refine ⟨members, ?_, hloop⟩
    change (v :: after).foldlM (g.visit fuel path) done = _
    rw [List.foldlM_cons, herror]
    rfl

theorem pathFrom_eq (hnodup : path.Nodup) (h : meet ∈ path) :
    pathFrom path meet = path.reverse.dropWhile (· != meet) := by
  obtain ⟨front, back, rfl⟩ := List.append_of_mem h
  obtain ⟨-, hback, hapart⟩ := List.nodup_append.1 hnodup
  have hfront : ∀ a ∈ front, (a != meet) = true := fun a ha =>
    bne_iff_ne.2 (hapart a ha meet List.mem_cons_self)
  have hrest : ∀ a ∈ back.reverse, (a != meet) = true := fun a ha =>
    bne_iff_ne.2 fun heq => (List.nodup_cons.1 hback).1 (heq ▸ List.mem_reverse.1 ha)
  unfold pathFrom
  have hrev : (front ++ meet :: back).reverse = back.reverse ++ (front ++ [meet]).reverse := by simp
  rw [List.takeWhile_append_of_pos hfront, List.takeWhile_cons_of_neg (by simp), List.append_nil, hrev,
    List.dropWhile_append_of_pos hrest]
  simp

theorem LeastWalk.isChain (h : g.LeastWalk (path.reverse ++ [next])) :
    (next :: path).IsChain fun a b => g.Edge b a := by
  have hsteps := h.steps
  rw [← List.reverse_cons, List.isChain_reverse] at hsteps
  exact hsteps.imp fun _ _ => LeastStep.edge

theorem LeastWalk.snoc (h : g.LeastWalk (walk ++ [u])) (hstep : g.LeastStep u v) :
    g.LeastWalk (walk ++ [u] ++ [v]) := by
  refine ⟨fun w hw => h.start w ?_, ?_⟩
  · rwa [List.head?_append_of_ne_nil _ (by simp)] at hw
  · rw [List.isChain_append]
    exact ⟨h.steps, .singleton v, by simpa using hstep⟩

/-- Where the walk comes back onto the path, the search ends with its loop. -/
theorem visit_of_walk_back (hopen : OpenPath g path) (hwalk : g.LeastWalk (path.reverse ++ [next]))
    (hback : next ∈ path) :
    ∃ members, g.visit fuel path finished next = .error members ∧ g.LeastLoop members :=
  ⟨_, visit_of_mem hback, path.reverse, next, hwalk, List.nodup_reverse.2 hopen.nodup,
    List.mem_reverse.2 hback, pathFrom_eq hopen.nodup hback⟩

/-- From a bad node that the walk has come to, the search follows the walk to its end. -/
theorem visit_of_bad (hopen : OpenPath g path) (hwalk : g.LeastWalk (path.reverse ++ [next]))
    (hbad : g.Bad next) (hclean : Clean g finished) (havoid : ∀ u ∈ path, u ∉ finished)
    (hfuel : g.nodeCount ≤ fuel + path.length) :
    ∃ members, g.visit fuel path finished next = .error members ∧ g.LeastLoop members := by
  induction fuel generalizing path finished next with
  | zero =>
    by_cases hback : next ∈ path
    · exact visit_of_walk_back hopen hwalk hback
    · have hlen := (hopen.extend hwalk.isChain hbad.contains hback).length_le
      rw [List.length_cons] at hlen
      omega
  | succ fuel ih =>
    by_cases hback : next ∈ path
    · exact visit_of_walk_back hopen hwalk hback
    · have hdone : next ∉ finished := fun h => hclean.not_bad h hbad
      have hopen' := hopen.extend hwalk.isChain hbad.contains hback
      -- successors before the least bad one are finished, so the path grows by a step of the walk
      obtain ⟨x, hx, hxbad⟩ := hbad.exists_succ
      obtain ⟨before, v, after, hsplit, hbefore, ⟨hv, hvbad⟩, hleast⟩ :=
        exists_least_bad pairwise_successors ⟨x, mem_successors.2 hx, hxbad⟩
      have hstep : g.LeastStep next v :=
        ⟨⟨mem_successors.1 hv, hvbad⟩, fun w hw => hleast ⟨mem_successors.2 hw.1, hw.2⟩⟩
      have hedge : ∀ u ∈ before, g.Edge next u := fun u hu =>
        mem_successors.1 (hsplit ▸ List.mem_append_left _ hu)
      have hwalk' : g.LeastWalk ((next :: path).reverse ++ [v]) := by
        rw [List.reverse_cons]
        exact hwalk.snoc hstep
      obtain ⟨members, herror, hloop⟩ := foldlM_visit_of_bad after hopen'
        (fun u hu => List.isChain_cons_cons.2 ⟨hedge u hu, hopen'.chain⟩) (fun u hu => (hedge u hu).target)
        hbefore hclean (List.forall_mem_cons.2 ⟨hdone, havoid⟩) (by rw [List.length_cons]; omega)
        fun s hs hd => ih hopen' hwalk' hvbad hs hd (by rw [List.length_cons]; omega)
      refine ⟨members, ?_, hloop⟩
      rw [visit_of_new hback hdone, explore_succ, hsplit, herror]
      rfl

/-- If there is a bad node, then what is found is the loop of the walk. -/
theorem exists_findCycle_of_bad (h : g.Bad u) : ∃ members, g.findCycle = some members ∧ g.LeastLoop members := by
  obtain ⟨before, v, after, hsplit, hbefore, ⟨hv, hvbad⟩, hleast⟩ :=
    exists_least_bad pairwise_nodes ⟨u, mem_nodes.2 h.contains, h⟩
  have hwalk : g.LeastWalk ([].reverse ++ [v]) := by
    refine ⟨fun w hw => ?_, .singleton v⟩
    obtain rfl : v = w := by simpa using hw
    exact ⟨hvbad, fun x hx => hleast ⟨mem_nodes.2 hx.contains, hx⟩⟩
  have hopen : OpenPath g [] := ⟨.nil, .nil, by simp⟩
  have hfuel : g.nodeCount ≤ g.nodeCount + ([] : List NodeId).length := Nat.le_add_right _ _
  obtain ⟨members, herror, hloop⟩ := foldlM_visit_of_bad after hopen (fun u _ => .singleton u)
    (fun u hu => mem_nodes.1 (hsplit ▸ List.mem_append_left _ hu)) hbefore clean_empty (by simp) hfuel
    fun s hs hd => visit_of_bad hopen hwalk hvbad hs hd hfuel
  refine ⟨members, ?_, hloop⟩
  rw [findCycle_eq, hsplit, herror]
  rfl

theorem LeastLoop.exists_cycle (h : g.LeastLoop members) : ∃ v, Relation.TransGen g.Edge v v := by
  by_contra hnone
  exact h.isCycle.2.not_acyclic (not_exists.1 hnone)

theorem findCycle_eq_some_iff : g.findCycle = some members ↔ g.LeastLoop members := by
  constructor
  · intro h
    have hcyclic : ∃ v, Relation.TransGen g.Edge v v := by
      by_contra hnone
      exact (isCycle_of_findCycle h).not_acyclic (not_exists.1 hnone)
    obtain ⟨v, hv⟩ := hcyclic
    obtain ⟨found, hfound, hloop⟩ := exists_findCycle_of_bad (bad_of_cycle hv)
    rw [h] at hfound
    cases hfound
    exact hloop
  · intro h
    obtain ⟨v, hv⟩ := h.exists_cycle
    obtain ⟨found, hfound, hloop⟩ := exists_findCycle_of_bad (bad_of_cycle hv)
    rw [hfound, hloop.unique h]

/-! ### It depends on the edges only -/

theorem bad_congr (h : g'.Edge = g.Edge) : g'.Bad = g.Bad := by
  funext u
  unfold Bad
  rw [h]

theorem leastStep_congr (h : g'.Edge = g.Edge) : g'.LeastStep = g.LeastStep := by
  funext u v
  unfold LeastStep
  rw [h, bad_congr h]

theorem LeastLoop.congr (h : g'.Edge = g.Edge) (hloop : g'.LeastLoop members) : g.LeastLoop members := by
  obtain ⟨walk, meet, ⟨hstart, hsteps⟩, hrest⟩ := hloop
  rw [bad_congr h] at hstart
  rw [leastStep_congr h] at hsteps
  exact ⟨walk, meet, ⟨hstart, hsteps⟩, hrest⟩

theorem findCycle_congr (h : ∀ u v, g'.Edge u v ↔ g.Edge u v) : g'.findCycle = g.findCycle := by
  have hedge : g'.Edge = g.Edge := by
    funext u v
    exact propext (h u v)
  refine Option.ext fun members => ?_
  rw [findCycle_eq_some_iff, findCycle_eq_some_iff]
  exact ⟨LeastLoop.congr hedge, LeastLoop.congr hedge.symm⟩

end Lineage.Graph
