import Lineage.Proofs.Graph.Selection
import Mathlib.Logic.Function.Iterate

/-!
# Two-sided expansion

A selection, everything that depends on it, and everything that any of those depends on. Both halves
leave out a selected node that no other one leads to, so what a half starts from is put back after it
(`mem_selectRelated_insertMany`). On that account the result is a least set, whatever cycles the graph has
(`selectChildrensParents_isLeast`).

The result is closed towards what it depends on only. What it brought in from there can have further
dependents, and expanding again brings these in as well: expanding twice is expanding once exactly if no
dependency leads out of the result (`expand_twice_iff`). In the end an expansion holds whatever is joined
to the selection (`mem_iterate_expand`).
-/

namespace Lineage.Graph

variable {g : Graph} {way : Direction} {selected other : List NodeId} {s : NodeSet} {t : Set NodeId}
  {u v w : NodeId} {k n : Nat}

/-! ## One expansion -/

/-- With the selected nodes put back, a selection holds all that they lead to. -/
theorem mem_selectRelated_insertMany :
    v ∈ (g.selectRelated way selected none).insertMany selected ↔
      ∃ s ∈ selected, Relation.ReflTransGen (g.Along way) s v := by
  rw [mem_insertMany, mem_selectRelated]
  simp only [reflTransGen_iff_walk]
  constructor
  · rintro (⟨s, hs, -, n, -, hw⟩ | hv)
    · exact ⟨s, hs, n, hw⟩
    · exact ⟨v, hv, 0, .nil v⟩
  · rintro ⟨s, hs, n, hw⟩
    by_cases hne : s = v
    · exact .inr (hne ▸ hs)
    · exact .inl ⟨s, hs, hne, n, by simp [Within], hw⟩

/-- The expansion holds what the dependents of a known selected node depend on. -/
theorem mem_selectChildrensParents :
    v ∈ g.selectChildrensParents selected ↔ ∃ s ∈ selected, g.contains s = true ∧
      ∃ d, Relation.ReflTransGen g.Dependency s d ∧ Relation.ReflTransGen g.Dependency v d := by
  have hback : ∀ d, Relation.ReflTransGen (g.Along .backward) d v ↔
      Relation.ReflTransGen g.Dependency v d := fun d => by
    rw [along_backward_eq, ← Relation.reflTransGen_swap]
  unfold selectChildrensParents selectParents selectChildren
  simp only [mem_selectRelated_insertMany, Std.ExtTreeSet.mem_toList, List.mem_filter, along_forward_eq,
    hback]
  constructor
  · rintro ⟨d, ⟨s, ⟨hs, hknown⟩, hd⟩, hv⟩
    exact ⟨s, hs, hknown, d, hd, hv⟩
  · rintro ⟨s, hs, hknown, d, hd, hv⟩
    exact ⟨d, ⟨s, ⟨hs, hknown⟩, hd⟩, hv⟩

theorem contains_of_transGen_dependency (h : Relation.TransGen g.Dependency u v) :
    g.contains u = true ∧ g.contains v = true :=
  contains_of_transGen (Relation.TransGen.mono (fun _ _ => Dependency.edge) _ _ h)

/-- The set holds the known selected nodes and what depends on them, and with each node what that depends
on. -/
structure Expands (g : Graph) (selected : List NodeId) (t : Set NodeId) : Prop where
  known : ∀ id ∈ selected, g.contains id = true → id ∈ t
  dependents : ∀ id ∈ selected, ∀ v, Relation.TransGen g.Dependency id v → v ∈ t
  upstream : ∀ v ∈ t, ∀ u, g.Dependency u v → u ∈ t

theorem Expands.mem_of_reflTransGen (ht : g.Expands selected t) (h : Relation.ReflTransGen g.Dependency u v)
    (hv : v ∈ t) : u ∈ t := by
  induction h using Relation.ReflTransGen.head_induction_on with
  | refl => exact hv
  | head hstep _ ih => exact ht.upstream _ ih _ hstep

theorem expands_selectChildrensParents : g.Expands selected {v | v ∈ g.selectChildrensParents selected} where
  known id hid hknown := mem_selectChildrensParents.2 ⟨id, hid, hknown, id, .refl, .refl⟩
  dependents id hid v hv := by
    have hknown := (contains_of_transGen_dependency hv).1
    exact mem_selectChildrensParents.2 ⟨id, hid, hknown, v, hv.to_reflTransGen, .refl⟩
  upstream v hv u hstep := by
    obtain ⟨s, hs, hknown, d, hd, hup⟩ := mem_selectChildrensParents.1 hv
    exact mem_selectChildrensParents.2 ⟨s, hs, hknown, d, hd, hup.head hstep⟩

theorem Expands.mem_of_mem_expansion (ht : g.Expands selected t)
    (hv : v ∈ g.selectChildrensParents selected) : v ∈ t := by
  obtain ⟨s, hs, hknown, d, hd, hup⟩ := mem_selectChildrensParents.1 hv
  refine ht.mem_of_reflTransGen hup ?_
  rcases Relation.reflTransGen_iff_eq_or_transGen.1 hd with rfl | hd
  · exact ht.known d hs hknown
  · exact ht.dependents s hs d hd

/-- What is not a node has no effect, and every other selected node only adds to the expansion. -/
theorem selectChildrensParents_mono (h : ∀ id ∈ selected, g.contains id = true → id ∈ other)
    (hv : v ∈ g.selectChildrensParents selected) : v ∈ g.selectChildrensParents other := by
  obtain ⟨s, hs, hknown, d, hd, hup⟩ := mem_selectChildrensParents.1 hv
  exact mem_selectChildrensParents.2 ⟨s, h s hs hknown, hknown, d, hd, hup⟩

theorem selectChildrensParents_congr (h : ∀ id, g.contains id = true → (id ∈ selected ↔ id ∈ other)) :
    g.selectChildrensParents selected = g.selectChildrensParents other :=
  Std.ExtTreeSet.ext_mem fun _ =>
    ⟨selectChildrensParents_mono fun id hid hknown => (h id hknown).1 hid,
      selectChildrensParents_mono fun id hid hknown => (h id hknown).2 hid⟩

theorem contains_of_mem_expansion (hv : v ∈ g.selectChildrensParents selected) : g.contains v = true := by
  have hnodes : g.Expands selected {v | g.contains v = true} :=
    ⟨fun _ _ hknown => hknown,
      fun _ _ _ hpath => (contains_of_transGen_dependency hpath).2,
      fun _ _ _ hstep => hstep.edge.source⟩
  exact hnodes.mem_of_mem_expansion hv

/-- **An expansion is a least set.** It is the least one that holds the known selected nodes with what
depends on them, and with each node what that depends on. So it holds nodes only, no node without its
ancestors; selecting more does not take anything away; and what is selected counts as a set, of which
everything that is not a node is left out. -/
theorem selectChildrensParents_isLeast (g : Graph) (selected : List NodeId) :
    IsLeast {t | g.Expands selected t} {v | v ∈ g.selectChildrensParents selected} ∧
    (∀ v ∈ g.selectChildrensParents selected, ∃ up, g.ancestors v none = .ok up ∧
      ∀ u ∈ up, u ∈ g.selectChildrensParents selected) ∧
    (∀ more, (∀ id ∈ selected, g.contains id = true → id ∈ more) →
      ∀ v ∈ g.selectChildrensParents selected, v ∈ g.selectChildrensParents more) ∧
    ∀ other, (∀ id, g.contains id = true → (id ∈ selected ↔ id ∈ other)) →
      g.selectChildrensParents selected = g.selectChildrensParents other := by
  refine ⟨⟨expands_selectChildrensParents, fun t ht v hv => ht.mem_of_mem_expansion hv⟩, fun v hv => ?_,
    fun more hmore v hv => selectChildrensParents_mono hmore hv,
    fun other hother => selectChildrensParents_congr hother⟩
  refine ⟨_, ancestors_eq_ok.2 ⟨contains_of_mem_expansion hv, rfl⟩, fun u hu => ?_⟩
  exact expands_selectChildrensParents.mem_of_reflTransGen (mem_related_backward.1 hu).2 hv

/-- Test edges do not count, and `x` comes in because `c` depends on it. -/
example :
    let g := (ofEdges [("a", "b"), ("b", "a"), ("b", "c"), ("x", "c"), ("y", "z")]).insertEdge "c" "y" .parentTest
    (g.selectChildrensParents ["nope", "b", "b"]).toList = ["a", "b", "c", "x"] := by
  decide +kernel

/-! ## Expanding again -/

/-- The expansion of a set. -/
def expand (g : Graph) (s : NodeSet) : NodeSet := g.selectChildrensParents s.toList

/-- A dependency joins the nodes, one way or the other. -/
def Joined (g : Graph) (u v : NodeId) : Prop := g.Dependency u v ∨ g.Dependency v u

theorem Joined.target (h : g.Joined u v) : g.contains v = true :=
  h.elim (fun h => h.edge.target) fun h => h.edge.source

theorem mem_expand :
    v ∈ g.expand s ↔ ∃ u ∈ s, g.contains u = true ∧
      ∃ d, Relation.ReflTransGen g.Dependency u d ∧ Relation.ReflTransGen g.Dependency v d := by
  unfold expand
  simp only [mem_selectChildrensParents, Std.ExtTreeSet.mem_toList]

theorem mem_expand_of_mem (hv : v ∈ s) (hknown : g.contains v = true) : v ∈ g.expand s :=
  mem_expand.2 ⟨v, hv, hknown, v, .refl, .refl⟩

theorem mem_expand_of_joined (hu : u ∈ s) (h : g.Joined u v) : v ∈ g.expand s := by
  rcases h with h | h
  · exact mem_expand.2 ⟨u, hu, h.edge.source, v, .single h, .refl⟩
  · exact mem_expand.2 ⟨u, hu, h.edge.target, u, .refl, .single h⟩

/-- Down to a common dependent and up again. -/
theorem reflTransGen_joined (hd : Relation.ReflTransGen g.Dependency u w)
    (hup : Relation.ReflTransGen g.Dependency v w) : Relation.ReflTransGen g.Joined u v := by
  have hback : Relation.ReflTransGen g.Joined w v :=
    Relation.ReflTransGen.mono (fun _ _ h => .inr h) _ _ (Relation.reflTransGen_swap.2 hup)
  exact (Relation.ReflTransGen.mono (fun _ _ h => .inl h) _ _ hd).trans hback

theorem mem_iterate_expand_of_walk (hu : u ∈ s) (h : Walk g.Joined n u v) : v ∈ g.expand^[n] s := by
  induction n generalizing v with
  | zero => rwa [← walk_zero_iff.1 h]
  | succ n ih =>
    obtain ⟨w, hw, hlast⟩ := walk_succ_iff_last.1 h
    rw [Function.iterate_succ_apply']
    exact mem_expand_of_joined (ih hw) hlast

theorem mem_iterate_expand_mono (hkn : k ≤ n) (hknown : g.contains v = true) (hv : v ∈ g.expand^[k] s) :
    v ∈ g.expand^[n] s := by
  induction n, hkn using Nat.le_induction with
  | base => exact hv
  | succ n _ ih =>
    rw [Function.iterate_succ_apply']
    exact mem_expand_of_mem ih hknown

theorem exists_joined_of_mem_iterate (hv : v ∈ g.expand^[n] s) :
    ∃ u ∈ s, Relation.ReflTransGen g.Joined u v := by
  induction n generalizing v with
  | zero => exact ⟨v, hv, .refl⟩
  | succ n ih =>
    rw [Function.iterate_succ_apply'] at hv
    obtain ⟨w, hw, -, d, hd, hup⟩ := mem_expand.1 hv
    obtain ⟨u, hu, huw⟩ := ih hw
    exact ⟨u, hu, huw.trans (reflTransGen_joined hd hup)⟩

/-- Expanding a set of nodes as often as the graph has nodes gives all that is joined to it. -/
theorem mem_iterate_expand (hs : ∀ u ∈ s, g.contains u = true) (hn : g.nodeCount ≤ n) :
    v ∈ g.expand^[n] s ↔ ∃ u ∈ s, Relation.ReflTransGen g.Joined u v := by
  refine ⟨exists_joined_of_mem_iterate, ?_⟩
  rintro ⟨u, hu, hpath⟩
  obtain ⟨m, hw⟩ := reflTransGen_iff_walk.1 hpath
  obtain ⟨k, -, hk, hw⟩ := hw.exists_short (s := g.nodeFinset)
    (fun _ _ _ h => mem_nodeFinset.2 h.target) (mem_nodeFinset.2 (hs u hu))
  rw [card_nodeFinset] at hk
  have hknown : g.contains v = true :=
    hw.mem (s := fun x => g.contains x = true) (fun _ _ _ h => h.target) (hs u hu)
  exact mem_iterate_expand_mono (Nat.le_trans hk.le hn) hknown (mem_iterate_expand_of_walk hu hw)

/-- Where no dependency leads out of an expansion, nothing is added to it. -/
theorem expand_eq_self_iff :
    g.expand (g.selectChildrensParents selected) = g.selectChildrensParents selected ↔
      ∀ u ∈ g.selectChildrensParents selected, ∀ v, g.Dependency u v →
        v ∈ g.selectChildrensParents selected := by
  constructor
  · intro heq u hu v hstep
    rw [← heq]
    exact mem_expand_of_joined hu (.inl hstep)
  · intro hout
    refine Std.ExtTreeSet.ext_mem fun v => ⟨fun hv => ?_, fun hv =>
      mem_expand_of_mem hv (contains_of_mem_expansion hv)⟩
    obtain ⟨u, hu, -, d, hd, hup⟩ := mem_expand.1 hv
    have hmem : d ∈ g.selectChildrensParents selected := by
      clear hup
      induction hd with
      | refl => exact hu
      | tail _ hstep ih => exact hout _ ih _ hstep
    exact expands_selectChildrensParents.mem_of_reflTransGen hup hmem

/-- **Expanding again.** It takes nothing away, and it adds nothing exactly if no dependency leads out of
the expansion. Expanding as often as the graph has nodes, or more often, always gives the same: all that
dependencies join, one way or the other, to the known selected nodes. -/
theorem expand_twice_iff (g : Graph) (selected : List NodeId) :
    (∀ v ∈ g.selectChildrensParents selected,
      v ∈ g.selectChildrensParents (g.selectChildrensParents selected).toList) ∧
    (g.selectChildrensParents (g.selectChildrensParents selected).toList =
        g.selectChildrensParents selected ↔
      ∀ u ∈ g.selectChildrensParents selected, ∀ v, g.Dependency u v →
        v ∈ g.selectChildrensParents selected) ∧
    ∀ n v, v ∈ g.expand^[g.nodeCount + n] (g.selectChildrensParents selected) ↔
      ∃ s ∈ selected, g.contains s = true ∧ Relation.ReflTransGen g.Joined s v := by
  refine ⟨fun v hv => mem_expand_of_mem hv (contains_of_mem_expansion hv), expand_eq_self_iff, fun n v => ?_⟩
  rw [mem_iterate_expand (fun u hu => contains_of_mem_expansion hu) (Nat.le_add_right g.nodeCount n)]
  constructor
  · rintro ⟨u, hu, hpath⟩
    obtain ⟨s, hs, hknown, d, hd, hup⟩ := mem_selectChildrensParents.1 hu
    exact ⟨s, hs, hknown, (reflTransGen_joined hd hup).trans hpath⟩
  · rintro ⟨s, hs, hknown, hpath⟩
    exact ⟨s, expands_selectChildrensParents.known s hs hknown, hpath⟩

/-- `b` depends on `a`, which `c` depends on as well. -/
theorem expand_twice_ne :
    let g := ofEdges [("a", "b"), ("a", "c")]
    (g.selectChildrensParents ["b"]).toList = ["a", "b"] ∧
      (g.selectChildrensParents (g.selectChildrensParents ["b"]).toList).toList = ["a", "b", "c"] ∧
      g.selectChildrensParents (g.selectChildrensParents ["b"]).toList ≠ g.selectChildrensParents ["b"] := by
  decide +kernel

end Lineage.Graph
