import Lineage.Proofs.Graph.Indexed
import Lineage.Proofs.Graph.LeastWalk
import Mathlib.Logic.Relation

/-!
# The search for a cycle in an arena

In an arena the search goes from index to index. It marks the nodes that it comes to, and has a stack of
those that it is not done with, each with the neighbours that it has not tried; `turn` is one round of its
loop. Whatever indices the arena gave out, it stands where the search by identities stands (`Stands`), so
it ends, with the same answer (`Represents.finds_iff`). What it finds is therefore the loop of the walk of
least bad nodes, after any edits in any order (`findCycle_eq_least_loop`).
-/

namespace Lineage

open Lineage.Graph (Direction OpenPath)

namespace Indexed

variable {A : Arena}

/-! ## The search -/

/-- How far the search is with a node that it came to (in `find_cycle`). -/
inductive Mark where
  | active
  | done
deriving DecidableEq, Repr

structure Search where
  /-- The nodes to start from. -/
  roots : List Nat
  marks : Std.HashMap Nat Mark
  /-- The open nodes, newest first, each with its neighbours that are not tried yet. -/
  stack : List (Nat × List Nat)

/-- The identities of the open nodes, newest first. -/
def path (x : Indexed A) (stack : List (Nat × List Nat)) : List NodeId := (stack.map (·.1)).map x.name

/-- Indices in the order of their identities (`sort_by_id`). -/
def inOrder (x : Indexed A) (indices : List Nat) : List Nat :=
  indices.mergeSort fun i j => x.name i ≤ x.name j

/-- The nodes that edges lead to from one, in the order in which they are tried (`pending_neighbors`). -/
def pending (x : Indexed A) (i : Nat) : List Nat := x.inOrder (A.neighboursAt x.arena .forward i)

/-- Goes on to a node that is new. -/
def Search.push (x : Indexed A) (s : Search) (i : Nat) : Search :=
  { s with marks := s.marks.insert i .active, stack := (i, x.pending i) :: s.stack }

/-- The open nodes from one on, oldest first. -/
def since (x : Indexed A) (stack : List (Nat × List Nat)) (i : Nat) : List NodeId :=
  let path := (stack.map (·.1)).reverse
  (path.drop ((path.findIdx? (· == i)).getD 0)).map x.name

/-- One round of the search (in `find_cycle`): it goes on, or it answers. -/
def turn (x : Indexed A) (s : Search) : Search ⊕ Option (List NodeId) :=
  match s.stack with
  | [] =>
    match s.roots with
    | [] => .inr none
    | root :: roots =>
      let rest := { s with roots }
      .inl (if s.marks.contains root then rest else rest.push x root)
  | (i, []) :: stack => .inl { s with marks := s.marks.insert i .done, stack }
  | (i, next :: untried) :: stack =>
    let rest := { s with stack := (i, untried) :: stack }
    match (s.marks[next]? : Option Mark) with
    | some .active => .inr (some (x.since rest.stack next))
    | some .done => .inl rest
    | none => .inl (rest.push x next)

/-- The search before its first round. -/
def search (x : Indexed A) : Search := ⟨x.inOrder (A.nodeIndices x.arena), ∅, []⟩

/-- The search gets from one state to the other. -/
def Leads (x : Indexed A) : Search → Search → Prop :=
  Relation.ReflTransGen fun s s' => x.turn s = .inl s'

/-- From this state the search ends, with this answer. -/
def Ends (x : Indexed A) (s : Search) (answer : Option (List NodeId)) : Prop :=
  ∃ last, x.Leads s last ∧ x.turn last = .inr answer

/-- The search for a cycle ends, with this answer (`find_cycle`). -/
def Finds (x : Indexed A) (answer : Option (List NodeId)) : Prop := x.Ends x.search answer

variable {x : Indexed A} {g : Graph} {s s' : Search} {roots rest opened : List Nat}
  {marks : Std.HashMap Nat Mark} {stack : List (Nat × List Nat)} {answer answer' : Option (List NodeId)}
  {finished : NodeSet} {i j next fuel : Nat}

theorem Leads.ends (h : x.Leads s s') (hs' : x.Ends s' answer) : x.Ends s answer := by
  obtain ⟨last, hlast, hanswer⟩ := hs'
  exact ⟨last, h.trans hlast, hanswer⟩

theorem ends_of_turn (h : x.turn s = .inr answer) : x.Ends s answer := ⟨s, .refl, h⟩

theorem leads_of_turn (h : x.turn s = .inl s') : x.Leads s s' := .single h

/-- The search answers once. -/
theorem Ends.unique (h : x.Ends s answer) (h' : x.Ends s answer') : answer = answer' := by
  obtain ⟨last, hlast, hanswer⟩ := h
  induction hlast using Relation.ReflTransGen.head_induction_on with
  | refl =>
    obtain ⟨last', hlast', hanswer'⟩ := h'
    rcases Relation.ReflTransGen.cases_head hlast' with rfl | ⟨s', hturn, -⟩
    · rw [hanswer] at hanswer'
      exact Sum.inr.inj hanswer'
    · rw [hanswer] at hturn
      cases hturn
  | head hturn _ ih =>
    obtain ⟨last', hlast', hanswer'⟩ := h'
    rcases Relation.ReflTransGen.cases_head hlast' with rfl | ⟨s', hturn', hrest⟩
    · rw [hanswer'] at hturn
      cases hturn
    · rw [hturn] at hturn'
      cases hturn'
      exact ih ⟨last', hrest, hanswer'⟩

/-! ### Rounds -/

theorem turn_back : x.turn ⟨roots, marks, (i, []) :: stack⟩ = .inl ⟨roots, marks.insert i .done, stack⟩ := rfl

theorem turn_active (h : marks[next]? = some .active) :
    x.turn ⟨roots, marks, (i, next :: rest) :: stack⟩ = .inr (some (x.since ((i, rest) :: stack) next)) := by
  simp only [turn, h]

theorem turn_done (h : marks[next]? = some .done) :
    x.turn ⟨roots, marks, (i, next :: rest) :: stack⟩ = .inl ⟨roots, marks, (i, rest) :: stack⟩ := by
  simp only [turn, h]

theorem turn_new (h : marks[next]? = none) :
    x.turn ⟨roots, marks, (i, next :: rest) :: stack⟩ =
      .inl (Search.push x ⟨roots, marks, (i, rest) :: stack⟩ next) := by
  simp only [turn, h]

theorem turn_root :
    x.turn ⟨i :: roots, marks, []⟩ =
      .inl (if marks.contains i then ⟨roots, marks, []⟩ else Search.push x ⟨roots, marks, []⟩ i) := rfl

theorem turn_last : x.turn ⟨[], marks, []⟩ = .inr none := rfl

/-! ## Where it stands -/

/-- A node with this index is in the graph. -/
def Used (x : Indexed A) (i : Nat) : Prop := (A.node? x.arena i).isSome

/-- The mark of a node, where these are the open nodes and these are finished. -/
def markOf (path : List NodeId) (finished : NodeSet) (u : NodeId) : Option Mark :=
  if u ∈ path then some .active else if u ∈ finished then some .done else none

/-- The search has these nodes open, newest first, and by its marks these ones are finished. -/
structure Stands (x : Indexed A) (g : Graph) (opened : List Nat) (marks : Std.HashMap Nat Mark)
    (finished : NodeSet) : Prop where
  used : ∀ i ∈ opened, x.Used i
  path : OpenPath g (opened.map x.name)
  marks : ∀ i, x.Used i → marks[i]? = markOf (opened.map x.name) finished (x.name i)

theorem Sound.name_inj (h : x.Sound) (hi : x.Used i) (hj : x.Used j) : x.name i = x.name j ↔ i = j := by
  refine ⟨fun heq => ?_, fun heq => heq ▸ rfl⟩
  have hij := h.table_name hi
  rw [heq, h.table_name hj] at hij
  exact (Option.some.inj hij).symm

theorem Represents.contains_name (h : x.Represents g.digraph) (hi : x.Used i) :
    g.contains (x.name i) = true :=
  Graph.mem_digraph.1 (h.mem_ids (h.table_name hi))

theorem Represents.exists_index (h : x.Represents g.digraph) {u : NodeId} (hu : g.contains u = true) :
    ∃ i, x.table[u]? = some i ∧ x.Used i ∧ x.name i = u := by
  obtain ⟨i, hi⟩ := (h.ids u).1 (Graph.mem_digraph.2 hu)
  exact ⟨i, hi, h.isSome_node? hi, h.name_eq hi⟩

theorem mem_inOrder {indices : List Nat} : j ∈ x.inOrder indices ↔ j ∈ indices := List.mem_mergeSort

/-- In order, indices have their names in order. -/
theorem map_name_inOrder {indices : List Nat} {names : List NodeId}
    (hperm : (indices.map x.name).Perm names) (hsorted : names.Pairwise (· < ·)) :
    (x.inOrder indices).map x.name = names := by
  have hnames : ((x.inOrder indices).map x.name).Perm names :=
    ((List.mergeSort_perm _ _).map x.name).trans hperm
  have hnodup : ((x.inOrder indices).map x.name).Nodup := hnames.nodup_iff.2 (hsorted.imp ne_of_lt)
  have hlisted : Listed (· < ·) ((x.inOrder indices).map x.name) (· ∈ names) :=
    ⟨pairwise_map_name hnodup, fun _ => hnames.mem_iff⟩
  exact hlisted.unique_of_lt ⟨hsorted, fun _ => Iff.rfl⟩

theorem Stands.push (h : x.Stands g opened marks finished) (hx : x.Sound) (hi : x.Used i)
    (hpath : (x.name i :: opened.map x.name).IsChain fun a b => g.Edge b a)
    (hknown : g.contains (x.name i) = true) (hnew : x.name i ∉ opened.map x.name) :
    x.Stands g (i :: opened) (marks.insert i .active) finished := by
  refine ⟨List.forall_mem_cons.2 ⟨hi, h.used⟩, h.path.extend hpath hknown hnew, fun j hj => ?_⟩
  rw [Std.HashMap.getElem?_insert, h.marks j hj]
  by_cases hij : i = j
  · subst hij
    simp [markOf]
  · have hne : x.name j ≠ x.name i := fun heq => hij ((hx.name_inj hj hi).1 heq).symm
    simp [markOf, hij, hne]

theorem Stands.pop (h : x.Stands g (i :: opened) marks finished) (hx : x.Sound) :
    x.Stands g opened (marks.insert i .done) (finished.insert (x.name i)) := by
  obtain ⟨hi, hused⟩ := List.forall_mem_cons.1 h.used
  obtain ⟨hnew, hnodup⟩ := List.nodup_cons.1 h.path.nodup
  refine ⟨hused, ⟨h.path.chain.tail, hnodup, (List.forall_mem_cons.1 h.path.known).2⟩, fun j hj => ?_⟩
  rw [Std.HashMap.getElem?_insert, h.marks j hj]
  by_cases hij : i = j
  · subst hij
    simp [markOf, hnew]
  · have hne : x.name j ≠ x.name i := fun heq => hij ((hx.name_inj hj hi).1 heq).symm
    have hfinished : x.name j ∈ finished.insert (x.name i) ↔ x.name j ∈ finished := by
      rw [Graph.mem_insert, or_iff_right hne]
    simp [markOf, hij, hne, hfinished]

/-- What is to be tried are the successors, in order. -/
theorem map_name_pending (hA : A.Lawful) (h : x.Represents g.digraph) (hi : x.Used i) :
    (x.pending i).map x.name = g.successors (x.name i) := by
  have hpending : Listed (· < ·) ((x.pending i).map x.name) fun v => (g.kind? (x.name i) v).isSome :=
    h.listed_neighbours hA (h.table_name hi)
  refine hpending.unique_of_lt ⟨Graph.pairwise_successors, fun v => ?_⟩
  rw [Graph.mem_successors, ← Option.isSome_iff_exists]

theorem used_of_mem_pending (hA : A.Lawful) (h : x.Sound) (hj : j ∈ x.pending i) : x.Used j := by
  unfold pending inOrder at hj
  rw [List.mem_mergeSort, (hA.neighboursAt_perm x.arena .forward i).mem_iff] at hj
  obtain ⟨⟨e, a⟩, hr, rfl⟩ := List.mem_map.1 hj
  obtain ⟨he, -⟩ := (hA.mem_edgesAt _ _ _ _ _).1 hr
  obtain ⟨-, v, hv⟩ := h.ends e a he
  exact h.isSome_node? hv

/-- The roots are the nodes, in order. -/
theorem map_name_roots (hA : A.Lawful) (h : x.Represents g.digraph) :
    (x.inOrder (A.nodeIndices x.arena)).map x.name = g.nodes := by
  have hnodes : x.nodes = g.nodes :=
    h.listed_nodes.unique_of_lt ⟨Graph.pairwise_nodes, fun v => Graph.mem_nodes.trans Graph.mem_digraph.symm⟩
  refine map_name_inOrder ?_ Graph.pairwise_nodes
  exact (h.names_perm hA).trans ((List.mergeSort_perm _ _).symm.trans (.of_eq hnodes))

theorem Represents.nodeCount_eq (hA : A.Lawful) (h : x.Represents g.digraph) :
    A.nodeCount x.arena = g.nodeCount := by
  have hlen := congrArg List.length (map_name_roots hA h)
  rw [List.length_map, inOrder, List.length_mergeSort, Graph.length_nodes] at hlen
  rw [hA.nodeCount_eq, hlen]

/-- From where an index is found in a list, that list goes on with it. -/
theorem drop_findIdx? {front back : List Nat} (hnew : i ∉ front) :
    (front ++ i :: back).drop (((front ++ i :: back).findIdx? (· == i)).getD 0) = i :: back := by
  have hother : front.findIdx? (· == i) = none :=
    List.findIdx?_eq_none_iff.2 fun j hj => beq_false_of_ne (ne_of_mem_of_not_mem hj hnew)
  rw [List.findIdx?_append, hother, List.findIdx?_cons]
  simp

theorem since_eq (hx : x.Sound) (hs : x.Stands g (stack.map (·.1)) marks finished) (hi : x.Used i)
    (hmem : x.name i ∈ x.path stack) : x.since stack i = Graph.pathFrom (x.path stack) (x.name i) := by
  have hpath : Graph.pathFrom (x.path stack) (x.name i) =
      ((stack.map (·.1)).reverse.map x.name).dropWhile (· != x.name i) := by
    rw [List.map_reverse]
    exact Graph.pathFrom_eq hs.path.nodup hmem
  rw [hpath]
  obtain ⟨j, hj, heq⟩ := List.mem_map.1 hmem
  obtain rfl := (hx.name_inj (hs.used j hj) hi).1 heq
  obtain ⟨front, back, hsplit, hnew⟩ := List.eq_append_cons_of_mem (List.mem_reverse.2 hj)
  have hfront : ∀ v ∈ front.map x.name, (v != x.name j) = true := by
    intro v hv
    obtain ⟨k, hk, rfl⟩ := List.mem_map.1 hv
    have hused : x.Used k :=
      hs.used k (List.mem_reverse.1 (hsplit ▸ List.mem_append_left _ hk))
    rw [bne_iff_ne, ne_eq, hx.name_inj hused hi]
    exact ne_of_mem_of_not_mem hk hnew
  unfold since
  dsimp only
  rw [hsplit, drop_findIdx? hnew, List.map_append, List.dropWhile_append_of_pos hfront]
  simp

/-! ## Where it gets to -/

/-- From the state the search gets to what the outcome says: it ends with the cycle, or comes to these roots
and this stack with these nodes finished. -/
def Reaches (x : Indexed A) (g : Graph) (s : Search) (roots : List Nat) (stack : List (Nat × List Nat)) :
    Except (List NodeId) NodeSet → Prop
  | .error members => x.Ends s (some members)
  | .ok done => ∃ marks, x.Leads s ⟨roots, marks, stack⟩ ∧ x.Stands g (stack.map (·.1)) marks done

theorem Reaches.head {outcome : Except (List NodeId) NodeSet} (hlead : x.Leads s s')
    (h : x.Reaches g s' roots stack outcome) : x.Reaches g s roots stack outcome := by
  cases outcome with
  | error members => exact hlead.ends h
  | ok done =>
    obtain ⟨marks, hrest, hs⟩ := h
    exact ⟨marks, hlead.trans hrest, hs⟩

/-- With a new node on the stack, the search gets to what exploring the node with this fuel answers. -/
def ExploreReaches (x : Indexed A) (g : Graph) (fuel : Nat) : Prop :=
  ∀ roots marks stack i finished, x.Stands g (i :: stack.map (·.1)) marks finished →
    g.nodeCount ≤ fuel + stack.length →
    x.Reaches g ⟨roots, marks, (i, x.pending i) :: stack⟩ roots stack
      (g.explore fuel (x.path stack) finished (x.name i))

theorem reaches_visit (h : x.Represents g.digraph) (hexplore : x.ExploreReaches g fuel)
    (hs : x.Stands g (i :: stack.map (·.1)) marks finished) (hnext : x.Used next)
    (hedge : g.Edge (x.name i) (x.name next)) (hfuel : g.nodeCount ≤ fuel + (stack.length + 1)) :
    x.Reaches g ⟨roots, marks, (i, next :: rest) :: stack⟩ roots ((i, rest) :: stack)
      (g.visit fuel (x.name i :: x.path stack) finished (x.name next)) := by
  -- the mark of `next` says which way the search by identities goes on
  have hmark := hs.marks next hnext
  by_cases hback : x.name next ∈ x.name i :: x.path stack
  · rw [Graph.visit_of_mem hback]
    have hactive : marks[next]? = some .active := hmark.trans (if_pos hback)
    have hsince : x.since ((i, rest) :: stack) next =
        Graph.pathFrom (x.name i :: x.path stack) (x.name next) := since_eq h.toSound hs hnext hback
    rw [← hsince]
    exact ends_of_turn (turn_active hactive)
  · by_cases hdone : x.name next ∈ finished
    · rw [Graph.visit_of_finished hback hdone]
      have hmarked : marks[next]? = some .done := hmark.trans ((if_neg hback).trans (if_pos hdone))
      exact ⟨marks, leads_of_turn (turn_done hmarked), hs⟩
    · rw [Graph.visit_of_new hback hdone]
      have hnew : marks[next]? = none := hmark.trans ((if_neg hback).trans (if_neg hdone))
      have hpath : (x.name next :: x.name i :: x.path stack).IsChain fun a b => g.Edge b a :=
        List.isChain_cons_cons.2 ⟨hedge, hs.path.chain⟩
      exact (hexplore _ _ ((i, rest) :: stack) next finished
        (hs.push h.toSound hnext hpath hedge.target hback) hfuel).head (leads_of_turn (turn_new hnew))

/-- One neighbour after the other is tried. -/
theorem reaches_sweep (h : x.Represents g.digraph) (hexplore : x.ExploreReaches g fuel)
    (hs : x.Stands g (i :: stack.map (·.1)) marks finished) (hrest : ∀ j ∈ rest, x.Used j)
    (hedges : ∀ j ∈ rest, g.Edge (x.name i) (x.name j)) (hfuel : g.nodeCount ≤ fuel + (stack.length + 1)) :
    x.Reaches g ⟨roots, marks, (i, rest) :: stack⟩ roots ((i, []) :: stack)
      ((rest.map x.name).foldlM (g.visit fuel (x.name i :: x.path stack)) finished) := by
  induction rest generalizing marks finished with
  | nil => exact ⟨marks, .refl, hs⟩
  | cons next rest ih =>
    obtain ⟨hnext, hrest⟩ := List.forall_mem_cons.1 hrest
    obtain ⟨hedge, hedges⟩ := List.forall_mem_cons.1 hedges
    have hvisit : x.Reaches g ⟨roots, marks, (i, next :: rest) :: stack⟩ roots ((i, rest) :: stack) _ :=
      reaches_visit h hexplore hs hnext hedge hfuel
    rw [List.map_cons, List.foldlM_cons]
    cases hr : g.visit fuel (x.name i :: x.path stack) finished (x.name next) with
    | error members =>
      rw [hr] at hvisit
      exact hvisit
    | ok done =>
      rw [hr] at hvisit
      obtain ⟨marks', hlead, hs'⟩ := hvisit
      exact (ih hs' hrest hedges).head hlead

/-- The fuel lasts, because open nodes are distinct and there are no more of them than nodes. -/
theorem exploreReaches (hA : A.Lawful) (h : x.Represents g.digraph) (fuel : Nat) :
    x.ExploreReaches g fuel := by
  induction fuel with
  | zero =>
    intro roots marks stack i finished hs hfuel
    have hlen := hs.path.length_le
    simp only [List.map_cons, List.length_cons, List.length_map] at hlen
    omega
  | succ fuel ih =>
    intro roots marks stack i finished hs hfuel
    have hpending := map_name_pending hA h (hs.used i List.mem_cons_self)
    have hedges : ∀ j ∈ x.pending i, g.Edge (x.name i) (x.name j) := by
      intro j hj
      have hmem : x.name j ∈ g.successors (x.name i) := hpending ▸ List.mem_map_of_mem hj
      exact Graph.mem_successors.1 hmem
    have hsweep : x.Reaches g ⟨roots, marks, (i, x.pending i) :: stack⟩ roots ((i, []) :: stack) _ :=
      reaches_sweep h ih hs (fun j hj => used_of_mem_pending hA h.toSound hj) hedges (by omega)
    rw [hpending] at hsweep
    rw [Graph.explore_succ]
    cases hr : (g.successors (x.name i)).foldlM (g.visit fuel (x.name i :: x.path stack)) finished with
    | error members =>
      rw [hr] at hsweep
      exact hsweep
    | ok done =>
      rw [hr] at hsweep
      obtain ⟨marks', hlead, hs'⟩ := hsweep
      exact ⟨_, hlead.trans (leads_of_turn turn_back), hs'.pop h.toSound⟩

/-- A root is passed over if it is finished, and explored otherwise. -/
theorem reaches_root (hA : A.Lawful) (h : x.Represents g.digraph) (hs : x.Stands g [] marks finished)
    (hi : x.Used i) (hknown : g.contains (x.name i) = true) :
    x.Reaches g ⟨i :: roots, marks, []⟩ roots [] (g.visit g.nodeCount [] finished (x.name i)) := by
  have hmark : marks[i]? = if x.name i ∈ finished then some .done else none :=
    (hs.marks i hi).trans (if_neg List.not_mem_nil)
  have hturn : x.turn ⟨i :: roots, marks, []⟩ = .inl (if x.name i ∈ finished then ⟨roots, marks, []⟩
      else Search.push x ⟨roots, marks, []⟩ i) := by
    rw [turn_root, Std.HashMap.contains_eq_isSome_getElem?, hmark]
    split <;> rfl
  refine Reaches.head (leads_of_turn hturn) ?_
  by_cases hdone : x.name i ∈ finished
  · rw [if_pos hdone, Graph.visit_of_finished List.not_mem_nil hdone]
    exact ⟨marks, .refl, hs⟩
  · rw [if_neg hdone, Graph.visit_of_new List.not_mem_nil hdone]
    exact exploreReaches hA h _ _ _ _ _ _
      (hs.push h.toSound hi (.singleton _) hknown List.not_mem_nil) (Nat.le_add_right _ _)

/-- The rest of the search, with no node open. -/
theorem ends_roots (hA : A.Lawful) (h : x.Represents g.digraph) (hs : x.Stands g [] marks finished)
    (hroots : ∀ i ∈ roots, x.Used i) (hknown : ∀ i ∈ roots, g.contains (x.name i) = true) :
    x.Ends ⟨roots, marks, []⟩
      (Graph.answerOf ((roots.map x.name).foldlM (g.visit g.nodeCount []) finished)) := by
  induction roots generalizing marks finished with
  | nil => exact ends_of_turn turn_last
  | cons i roots ih =>
    obtain ⟨hi, hroots⟩ := List.forall_mem_cons.1 hroots
    obtain ⟨hiknown, hknown⟩ := List.forall_mem_cons.1 hknown
    have hroot : x.Reaches g ⟨i :: roots, marks, []⟩ roots [] _ := reaches_root hA h hs hi hiknown
    rw [List.map_cons, List.foldlM_cons]
    cases hr : g.visit g.nodeCount [] finished (x.name i) with
    | error members =>
      rw [hr] at hroot
      exact hroot
    | ok done =>
      rw [hr] at hroot
      obtain ⟨marks', hlead, hs'⟩ := hroot
      exact hlead.ends (ih hs' hroots hknown)

/-- The search ends, with the answer of the search by identities. -/
theorem Represents.finds_iff (hA : A.Lawful) (h : x.Represents g.digraph) :
    x.Finds answer ↔ answer = g.findCycle := by
  have hs : x.Stands g [] ∅ ∅ := ⟨by simp, ⟨.nil, .nil, by simp⟩, by simp [markOf]⟩
  have hused : ∀ i ∈ x.inOrder (A.nodeIndices x.arena), x.Used i := fun i hi =>
    (hA.mem_nodeIndices _ _).1 (mem_inOrder.1 hi)
  have hfinds := ends_roots hA h hs hused fun i hi => h.contains_name (hused i hi)
  rw [map_name_roots hA h, ← Graph.findCycle_eq] at hfinds
  exact ⟨fun hanswer => hanswer.unique hfinds, fun heq => heq ▸ hfinds⟩

end Indexed

/-! ## After any edits -/

/-- Edits keep it that a graph in an arena holds the digraph of a graph of this library. -/
theorem Indexed.Represents.runAll {A : Arena} (hA : A.Lawful) {x : Indexed A} {g : Graph}
    (hx : x.Represents g.digraph) (edits : List Edit) :
    (Edit.runAll Indexed.apply x edits).2.Represents (Edit.runAll Graph.apply g edits).2.digraph := by
  refine (Edit.runAll_related (fun (x : Indexed A) (g : Graph) => x.Represents g.digraph)
    (fun x g edit h => ?_) edits x g hx).2
  obtain ⟨hout, hrep⟩ := h.apply hA edit
  obtain ⟨hout', hview⟩ := Graph.digraph_apply g edit
  rw [← hview] at hrep
  exact ⟨hout.trans hout'.symm, hrep⟩

/-- After the same edits, a graph in an arena holds the same digraph as the graph of this library. -/
theorem represents_runAll {A : Arena} (hA : A.Lawful) (edits : List Edit) :
    (Edit.runAll Indexed.apply (Indexed.empty : Indexed A) edits).2.Represents
      (Edit.runAll Graph.apply ∅ edits).2.digraph := by
  refine Indexed.Represents.runAll hA ?_ edits
  rw [Graph.digraph_empty]
  exact Indexed.Represents.empty hA

/-- **Which cycle is found.** It is the loop of the walk that starts at the least bad node and steps to the
least bad successor, up to the first node that it meets twice. There is such a loop exactly if the graph
has a cycle, and it is one itself, without repetitions. Graphs with the same edges have the same one, and
so the search in an arena ends with it after any edits that lead to these edges. -/
theorem findCycle_eq_least_loop (g : Graph) :
    (∀ members, g.findCycle = some members ↔ g.LeastLoop members) ∧
    ((∃ members, g.LeastLoop members) ↔ ∃ v, Relation.TransGen g.Edge v v) ∧
    (∀ members, g.LeastLoop members → members.Nodup ∧ g.IsCycle members) ∧
    (∀ g' : Graph, (∀ u v, g'.Edge u v ↔ g.Edge u v) → g'.findCycle = g.findCycle) ∧
    ∀ A : Arena, A.Lawful → ∀ edits : List Edit,
      (∀ u v, (Edit.runAll Graph.apply ∅ edits).2.Edge u v ↔ g.Edge u v) → ∀ answer,
        (Edit.runAll Indexed.apply (Indexed.empty : Indexed A) edits).2.Finds answer ↔
          answer = g.findCycle := by
  refine ⟨fun _ => Graph.findCycle_eq_some_iff, ⟨?_, ?_⟩, fun _ => Graph.LeastLoop.isCycle,
    fun _ => Graph.findCycle_congr, ?_⟩
  · rintro ⟨members, hloop⟩
    exact hloop.exists_cycle
  · rintro ⟨v, hv⟩
    obtain ⟨members, -, hloop⟩ := Graph.exists_findCycle_of_bad (Graph.bad_of_cycle hv)
    exact ⟨members, hloop⟩
  · intro A hA edits hedges answer
    rw [(represents_runAll hA edits).finds_iff hA, Graph.findCycle_congr hedges]

/-- Of `a`, `b` and `z`, all bad, the walk starts at `a` and stops at the loop of `z`. -/
theorem findCycle_eq_least_loop_reinserted :
    let edits : List Edit :=
      [.ofEdges [("z", "z"), ("a", "z"), ("b", "b")], .removeNode "a", .addNode "c", .addNode "a",
        .addEdge "a" "z" .parentTest]
    let g := (Edit.runAll Graph.apply ∅ edits).2
    slotArena.Lawful ∧ (∃ v, Relation.TransGen g.Edge v v) ∧ g.findCycle = some ["z"] ∧
      g.LeastLoop ["z"] ∧
      (Edit.runAll Indexed.apply (Indexed.empty : Indexed slotArena) edits).2.Finds (some ["z"]) := by
  intro edits g
  have hfound : g.findCycle = some ["z"] := by decide +kernel
  obtain ⟨hloop, hcycle, -, -, harena⟩ := findCycle_eq_least_loop g
  have hmembers := (hloop ["z"]).1 hfound
  exact ⟨slotArena_lawful, hcycle.1 ⟨_, hmembers⟩, hfound, hmembers,
    (harena slotArena slotArena_lawful edits (fun _ _ => Iff.rfl) _).2 hfound.symm⟩

end Lineage
