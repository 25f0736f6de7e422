import Lineage.Graph.Cycle
import Lineage.Proofs.Graph.Walk
import Lineage.Proofs.Graph.Search
import Mathlib.Data.List.Chain

/-!
# The depth-first search for a cycle

`findCycle` answers with a cycle exactly when there is one (`findCycle_spec`). The search keeps a set
of finished nodes from which no cycle can be reached (`Clean`) and a path of open nodes that it stands
at the end of (`OpenPath`). Open nodes are distinct, so the path never gets longer than there are
nodes, and the search cannot be cut short by its bound.
-/

namespace Lineage.Graph

variable {g : Graph} {path avoid goals : List NodeId} {finished : NodeSet} {id next u v : NodeId}
  {fuel : Nat}

/-! ## Cycles -/

/-- The members of a cycle in path order: each leads to the next, and the last to the first. -/
def IsCycle (g : Graph) (members : List NodeId) : Prop :=
  members ≠ [] ∧ (members ++ members.take 1).IsChain g.Edge

theorem transGen_of_isChain {r : NodeId → NodeId → Prop} {l : List NodeId}
    (h : (u :: (l ++ [v])).IsChain r) : Relation.TransGen r u v := by
  induction l generalizing u with
  | nil => exact .single (List.isChain_pair.1 h)
  | cons a l ih =>
    rw [List.cons_append, List.isChain_cons_cons] at h
    exact .head h.1 (ih h.2)

theorem IsCycle.not_acyclic {members : List NodeId} (h : IsCycle g members) : ¬ g.Acyclic := by
  obtain ⟨hne, hchain⟩ := h
  cases members with
  | nil => exact absurd rfl hne
  | cons a l => exact fun hg => hg a (transGen_of_isChain (by simpa using hchain))

theorem IsCycle.contains {members : List NodeId} (h : IsCycle g members) (hu : u ∈ members) :
    g.contains u = true := by
  obtain ⟨i, hi, rfl⟩ := List.getElem_of_mem hu
  have hfirst : (members.take 1).length = 1 := by rw [List.length_take]; omega
  have hstep := List.isChain_iff_getElem.1 h.2 i (by rw [List.length_append, hfirst]; omega)
  rw [List.getElem_append_left hi] at hstep
  exact hstep.source

/-- The nodes up to and including one of a path are the beginning of that path. -/
theorem takeWhile_append_prefix (h : next ∈ path) : path.takeWhile (· != next) ++ [next] <+: path := by
  induction path with
  | nil => simp at h
  | cons a rest ih =>
    by_cases ha : a = next
    · subst ha
      simp
    · have hrest : next ∈ rest := by
        rcases List.mem_cons.1 h with h | h
        · exact absurd h.symm ha
        · exact h
      simpa [ha] using ih hrest

/-- A step from the end of a path back onto it closes a cycle. -/
theorem isCycle_pathFrom (hpath : (id :: path).IsChain fun a b => g.Edge b a)
    (hstep : g.Edge id next) (hmem : next ∈ id :: path) : IsCycle g (pathFrom (id :: path) next) := by
  have hpre := takeWhile_append_prefix hmem
  unfold pathFrom
  generalize hw : (id :: path).takeWhile (· != next) = before at hpre
  refine ⟨by simp, ?_⟩
  have hloop : ((before ++ [next]).reverse ++ ((before ++ [next]).reverse).take 1) =
      (next :: (before ++ [next])).reverse := by simp
  rw [hloop, List.isChain_reverse, List.isChain_cons]
  refine ⟨fun y hy => ?_, hpath.prefix hpre⟩
  -- the newest node of the path is the one that the step starts from
  have hhead : y = id := by
    obtain ⟨tail, htail⟩ := hpre
    cases before with
    | nil => simp_all
    | cons b before => simp_all
  rwa [hhead]

/-! ## What the search keeps -/

/-- Finished nodes lead to finished nodes only, and to no cycle. -/
structure Clean (g : Graph) (finished : NodeSet) : Prop where
  closed : ∀ u ∈ finished, ∀ v, g.Edge u v → v ∈ finished
  acyclic : ∀ u ∈ finished, ¬ Relation.TransGen g.Edge u u

theorem Clean.mem_of_path (h : Clean g finished) (hu : u ∈ finished)
    (hw : Relation.ReflTransGen g.Edge u v) : v ∈ finished := by
  induction hw with
  | refl => exact hu
  | tail _ he ih => exact h.closed _ ih _ he

theorem clean_empty : Clean g ∅ :=
  ⟨fun _ hu => absurd hu Std.ExtTreeSet.not_mem_empty, fun _ hu => absurd hu Std.ExtTreeSet.not_mem_empty⟩

/-- A node whose successors are finished is clean as well. -/
theorem Clean.insert (h : Clean g finished) (hsucc : ∀ v, g.Edge id v → v ∈ finished)
    (hid : id ∉ finished) : Clean g (finished.insert id) := by
  refine ⟨fun u hu v he => mem_insert.2 (.inr ?_), fun u hu hc => ?_⟩
  · rcases mem_insert.1 hu with rfl | hu
    · exact hsucc v he
    · exact h.closed u hu v he
  · rcases mem_insert.1 hu with rfl | hu
    · obtain ⟨v, he, hw⟩ := Relation.TransGen.head'_iff.1 hc
      exact hid (h.mem_of_path (hsucc v he) hw)
    · exact h.acyclic u hu hc

/-- The open nodes, newest first: each is a successor of the one behind it. -/
structure OpenPath (g : Graph) (path : List NodeId) : Prop where
  chain : path.IsChain fun a b => g.Edge b a
  nodup : path.Nodup
  known : ∀ u ∈ path, g.contains u = true

theorem OpenPath.length_le (h : OpenPath g path) : path.length ≤ g.nodeCount := by
  rw [← length_nodes]
  exact (List.subperm_of_subset h.nodup fun u hu => mem_nodes.2 (h.known u hu)).length_le

theorem OpenPath.cons (h : OpenPath g (id :: path)) (hstep : g.Edge id next)
    (hnew : next ∉ id :: path) : OpenPath g (next :: id :: path) := by
  refine ⟨List.isChain_cons_cons.2 ⟨hstep, h.chain⟩, List.nodup_cons.2 ⟨hnew, h.nodup⟩, ?_⟩
  intro u hu
  rcases List.mem_cons.1 hu with rfl | hu
  · exact hstep.target
  · exact h.known u hu

/-- What a search owes that starts from these finished nodes and is sent to these goals: a cycle, or a
larger clean set that holds the goals and none of the open nodes. -/
def Explores (g : Graph) (avoid : List NodeId) (finished : NodeSet) (goals : List NodeId) :
    Except (List NodeId) NodeSet → Prop
  | .error members => IsCycle g members
  | .ok done => Clean g done ∧ (∀ u ∈ finished, u ∈ done) ∧ (∀ u ∈ goals, u ∈ done) ∧
      ∀ u ∈ avoid, u ∉ done

/-- Searches one after the other: what each owes for its goal, all together owe for all goals. -/
theorem explores_foldlM {f : NodeSet → NodeId → Except (List NodeId) NodeSet}
    (hf : ∀ finished, Clean g finished → (∀ u ∈ avoid, u ∉ finished) → ∀ goal ∈ goals,
      Explores g avoid finished [goal] (f finished goal))
    (hclean : Clean g finished) (havoid : ∀ u ∈ avoid, u ∉ finished) :
    Explores g avoid finished goals (goals.foldlM f finished) := by
  induction goals generalizing finished with
  | nil => exact ⟨hclean, fun _ hu => hu, fun u hu => absurd hu List.not_mem_nil, havoid⟩
  | cons goal goals ih =>
    have hgoal := hf finished hclean havoid goal List.mem_cons_self
    rw [List.foldlM_cons]
    cases hr : f finished goal with
    | error members => rw [hr] at hgoal; exact hgoal
    | ok done =>
      rw [hr] at hgoal
      obtain ⟨hclean', hsub, hmem, havoid'⟩ := hgoal
      have hrest := ih (fun s hs hd a ha => hf s hs hd a (List.mem_cons_of_mem _ ha)) hclean' havoid'
      change Explores g avoid finished (goal :: goals) (goals.foldlM f done)
      cases hr' : goals.foldlM f done with
      | error members => rw [hr'] at hrest; exact hrest
      | ok last =>
        rw [hr'] at hrest
        obtain ⟨hclean'', hsub', hmem', havoid''⟩ := hrest
        refine ⟨hclean'', fun u hu => hsub' u (hsub u hu), fun u hu => ?_, havoid''⟩
        rcases List.mem_cons.1 hu with rfl | hu
        · exact hsub' u (hmem u (List.mem_singleton_self u))
        · exact hmem' u hu

/-! ## The search -/

theorem explore_spec (hopen : OpenPath g (id :: path)) (hclean : Clean g finished)
    (havoid : ∀ u ∈ id :: path, u ∉ finished) (hfuel : g.nodeCount ≤ fuel + path.length) :
    Explores g path finished [id] (g.explore fuel path finished id) := by
  induction fuel generalizing path finished id with
  | zero =>
    have hlen := hopen.length_le
    rw [List.length_cons] at hlen
    omega
  | succ fuel ih =>
    have hsweep : Explores g (id :: path) finished (g.successors id)
        ((g.successors id).foldlM (fun finished next =>
          if (id :: path).contains next then .error (pathFrom (id :: path) next)
          else if finished.contains next then .ok finished
          else explore g fuel (id :: path) finished next) finished) := by
      refine explores_foldlM (fun s hs hd next hnext => ?_) hclean havoid
      have hstep : g.Edge id next := mem_successors.1 hnext
      split
      · rename_i hback
        exact isCycle_pathFrom hopen.chain hstep (List.contains_iff_mem.1 hback)
      · rename_i hback
        split
        · rename_i hdone
          refine ⟨hs, fun _ hu => hu, fun u hu => ?_, hd⟩
          rw [List.mem_singleton.1 hu]
          exact Std.ExtTreeSet.contains_iff_mem.1 hdone
        · rename_i hdone
          have hnew : next ∉ id :: path := fun h => hback (List.contains_iff_mem.2 h)
          refine ih (hopen.cons hstep hnew) hs (fun u hu => ?_) (by rw [List.length_cons]; omega)
          rcases List.mem_cons.1 hu with rfl | hu
          · exact fun h => hdone (Std.ExtTreeSet.contains_iff_mem.2 h)
          · exact hd u hu
    rw [explore]
    generalize List.foldlM (m := Except (List NodeId)) _ finished (g.successors id) = outcome
      at hsweep ⊢
    cases outcome with
    | error members => exact hsweep
    | ok done =>
      obtain ⟨hdone, hsub, hsucc, hd⟩ := hsweep
      have hid : id ∉ done := hd id List.mem_cons_self
      refine ⟨hdone.insert (fun v he => hsucc v (mem_successors.2 he)) hid,
        fun u hu => mem_insert.2 (.inr (hsub u hu)), fun u hu => mem_insert.2 (.inl ?_), fun u hu h => ?_⟩
      · exact List.mem_singleton.1 hu
      · rcases mem_insert.1 h with rfl | h
        · exact (List.nodup_cons.1 hopen.nodup).1 hu
        · exact hd u (List.mem_cons_of_mem _ hu) h

/-- **The search answers with a cycle, or there is none.** -/
theorem findCycle_spec (g : Graph) :
    match g.findCycle with
    | some members => IsCycle g members
    | none => g.Acyclic := by
  have hsweep : Explores g [] ∅ g.nodes (g.nodes.foldlM (fun finished root =>
      if finished.contains root then .ok finished else g.explore g.nodeCount [] finished root) ∅) := by
    refine explores_foldlM (fun s hs hd root hroot => ?_) clean_empty (by simp)
    split
    · rename_i hdone
      refine ⟨hs, fun _ hu => hu, fun u hu => ?_, hd⟩
      rw [List.mem_singleton.1 hu]
      exact Std.ExtTreeSet.contains_iff_mem.1 hdone
    · rename_i hdone
      refine explore_spec ⟨.singleton root, List.nodup_singleton root, fun u hu => ?_⟩ hs
        (fun u hu h => ?_) (by simp)
      · rw [List.mem_singleton.1 hu]; exact mem_nodes.1 hroot
      · rw [List.mem_singleton.1 hu] at h
        exact hdone (Std.ExtTreeSet.contains_iff_mem.2 h)
  unfold findCycle
  generalize List.foldlM (m := Except (List NodeId)) _ (∅ : NodeSet) g.nodes = outcome at hsweep ⊢
  cases outcome with
  | error members => exact hsweep
  | ok done =>
    obtain ⟨hclean, _, hall, _⟩ := hsweep
    intro v hc
    exact hclean.acyclic v (hall v (mem_nodes.2 (contains_of_transGen hc).1)) hc

theorem findCycle_eq_none_iff : g.findCycle = none ↔ g.Acyclic := by
  have h := findCycle_spec g
  cases hc : g.findCycle with
  | none => rw [hc] at h; simpa using h
  | some members => rw [hc] at h; simpa using h.not_acyclic

theorem isCycle_of_findCycle {members : List NodeId} (hc : g.findCycle = some members) :
    IsCycle g members := by
  have h := findCycle_spec g
  rwa [hc] at h

end Lineage.Graph
