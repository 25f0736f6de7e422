import Lineage.Proofs.Graph.IndexedReach

/-!
# Asking for a path

Whether there is a path from one node to another is read off the descendants of the first, and no node is among
its own descendants. So the answer is right for two different nodes (`Graph.hasPath_eq_true_iff`), and for a node
and itself it is no, even on a cycle. All answers are right exactly in a graph without cycles of dependencies
(`Graph.hasPath_complete_iff`). They are transitive exactly if no two nodes lead to each other
(`Graph.hasPath_trans_iff`). An arena gives the same answers (`Indexed.Represents.hasPath_eq`).
-/

namespace Lineage

namespace Graph

variable {g : Graph} {u v : NodeId}

/-- Without a bound, the descendants of a node are the others to which dependencies lead from it. -/
theorem mem_related_forward :
    v ∈ g.related .forward u none ↔ u ≠ v ∧ Relation.TransGen g.Dependency u v := by
  rw [mem_related_comm, mem_related_backward, Relation.reflTransGen_iff_eq_or_transGen]
  refine and_congr_right fun hne => ?_
  rw [or_iff_right (Ne.symm hne)]

theorem hasPath_eq_ok {found : Bool} :
    g.hasPath u v = .ok found ↔
      (g.contains u = true ∧ g.contains v = true) ∧ (g.related .forward u none).contains v = found := by
  unfold hasPath descendants known
  cases g.contains u <;> cases g.contains v <;> simp [Except.map, bind, Except.bind, pure, Except.pure]

/-- The answer is yes if the ends are different and dependencies lead from one to the other. -/
theorem hasPath_eq_true_iff :
    g.hasPath u v = .ok true ↔ u ≠ v ∧ Relation.TransGen g.Dependency u v := by
  rw [hasPath_eq_ok, Std.ExtTreeSet.contains_iff_mem, mem_related_forward]
  refine and_iff_right_of_imp fun h => ?_
  exact contains_of_transGen (Relation.TransGen.mono (fun _ _ => Dependency.edge) _ _ h.2)

/-- All answers are right exactly if no node is on a cycle of dependencies. -/
theorem hasPath_complete_iff :
    (∀ u v, g.hasPath u v = .ok true ↔ Relation.TransGen g.Dependency u v) ↔
      ∀ u, ¬ Relation.TransGen g.Dependency u u := by
  simp only [hasPath_eq_true_iff]
  constructor
  · intro hall u hloop
    exact ((hall u u).2 hloop).1 rfl
  · intro hnone u v
    refine ⟨And.right, fun hpath => ⟨?_, hpath⟩⟩
    rintro rfl
    exact hnone u hpath

/-- The answers are transitive exactly if no two nodes are on one cycle of dependencies. -/
theorem hasPath_trans_iff :
    (∀ u v w, g.hasPath u v = .ok true → g.hasPath v w = .ok true → g.hasPath u w = .ok true) ↔
      ∀ u v, Relation.TransGen g.Dependency u v → Relation.TransGen g.Dependency v u → u = v := by
  simp only [hasPath_eq_true_iff]
  constructor
  · intro htrans u v huv hvu
    by_contra hne
    exact (htrans u v u ⟨hne, huv⟩ ⟨Ne.symm hne, hvu⟩).1 rfl
  · rintro hnone u v w ⟨hne, huv⟩ ⟨-, hvw⟩
    refine ⟨?_, huv.trans hvw⟩
    rintro rfl
    exact hne (hnone u v huv hvw)

end Graph

namespace Indexed

variable {A : Arena} {x : Indexed A} {g : Graph} {u v : NodeId}

/-- The end of the path is looked up before its start (`has_path`). -/
def hasPath (x : Indexed A) (source target : NodeId) : Except GraphError (Option Bool) := do
  let _ ← x.index target
  return (← x.descendants source none).map (·.contains target)

theorem Represents.hasPath_eq (hA : A.Lawful) (h : x.Represents g.digraph) :
    x.hasPath u v = (g.hasPath u v).map some := by
  have htarget : (x.index v).map (fun _ => ()) = (g.known v).map fun _ => () :=
    h.map_index (k := fun _ => ()) fun _ _ => rfl
  have hsource : x.descendants u none = (g.descendants u none).map some := h.map_related hA
  unfold Indexed.hasPath Graph.hasPath
  rw [hsource]
  cases hx : x.index v <;> cases hg : g.known v <;> cases hd : g.descendants u none <;>
    simp_all [Except.map, bind, Except.bind, pure, Except.pure]

end Indexed

/-- **Asking for a path.** Between nodes of the graph there always is an answer. It is yes exactly if the two are
different and dependencies lead from the first to the second. So all answers are right exactly if no dependencies
lead from a node back to it, and they are transitive exactly if no two nodes lead to each other. After any edits
that lead to this graph, an arena gives the same answers. -/
theorem hasPath_iff_distinct (g : Graph) :
    (∀ u v, g.contains u = true → g.contains v = true → ∃ found, g.hasPath u v = .ok found ∧
      (found = true ↔ u ≠ v ∧ Relation.TransGen g.Dependency u v)) ∧
    ((∀ u v, g.hasPath u v = .ok true ↔ Relation.TransGen g.Dependency u v) ↔
      ∀ u, ¬ Relation.TransGen g.Dependency u u) ∧
    ((∀ u v w, g.hasPath u v = .ok true → g.hasPath v w = .ok true → g.hasPath u w = .ok true) ↔
      ∀ u v, Relation.TransGen g.Dependency u v → Relation.TransGen g.Dependency v u → u = v) ∧
    ∀ A : Arena, A.Lawful → ∀ edits : List Edit, (Edit.runAll Graph.apply ∅ edits).2 = g → ∀ u v,
      (Edit.runAll Indexed.apply (Indexed.empty : Indexed A) edits).2.hasPath u v = (g.hasPath u v).map some := by
  refine ⟨fun u v hu hv => ?_, Graph.hasPath_complete_iff, Graph.hasPath_trans_iff, ?_⟩
  · refine ⟨_, Graph.hasPath_eq_ok.2 ⟨⟨hu, hv⟩, rfl⟩, ?_⟩
    rw [Std.ExtTreeSet.contains_iff_mem, Graph.mem_related_forward]
  · rintro A hA edits rfl u v
    exact (represents_runAll hA edits).hasPath_eq hA

/-- From `a` dependencies lead over `b` to `c` and back to `a`. The path to `c` is found and the one back to `a` is
not, though both its halves are; nor is the one from `c` to itself. -/
theorem hasPath_iff_distinct_round_cycle :
    let edits : List Edit :=
      [.ofEdges [("a", "b"), ("b", "a"), ("b", "c")], .removeNode "c", .addNode "c",
        .addEdge "b" "c" .dependency, .addEdge "c" "c" .dependency]
    let g := (Edit.runAll Graph.apply ∅ edits).2
    let x := (Edit.runAll Indexed.apply (Indexed.empty : Indexed slotArena) edits).2
    slotArena.Lawful ∧ (g.contains "a" = true ∧ g.contains "c" = true) ∧
      (∃ found, g.hasPath "a" "c" = .ok found ∧ found = true) ∧
      (∃ found, g.hasPath "a" "a" = .ok found ∧ found ≠ true) ∧
      (¬ ∀ u v w, g.hasPath u v = .ok true → g.hasPath v w = .ok true → g.hasPath u w = .ok true) ∧
      x.hasPath "a" "c" = .ok (some true) ∧ x.hasPath "c" "c" = .ok (some false) := by
  intro edits g x
  have ha : g.contains "a" = true := by decide +kernel
  have hc : g.contains "c" = true := by decide +kernel
  have hab : Relation.TransGen g.Dependency "a" "b" := .single (show g.kind? "a" "b" = _ by decide +kernel)
  have hba : Relation.TransGen g.Dependency "b" "a" := .single (show g.kind? "b" "a" = _ by decide +kernel)
  have hbc : Relation.TransGen g.Dependency "b" "c" := .single (show g.kind? "b" "c" = _ by decide +kernel)
  obtain ⟨hanswer, -, htrans, harena⟩ := hasPath_iff_distinct g
  obtain ⟨_, hthere, hiff⟩ := hanswer "a" "c" ha hc
  obtain ⟨_, hback, hiff'⟩ := hanswer "a" "a" ha ha
  have hpath : g.hasPath "a" "c" = .ok true := by decide +kernel
  have hloop : g.hasPath "c" "c" = .ok false := by decide +kernel
  refine ⟨slotArena_lawful, ⟨ha, hc⟩, ⟨_, hthere, hiff.2 ⟨by decide, hab.trans hbc⟩⟩,
    ⟨_, hback, fun htrue => (hiff'.1 htrue).1 rfl⟩, fun hall => ?_, ?_, ?_⟩
  · exact absurd (htrans.1 hall "a" "b" hab hba) (by decide)
  · rw [harena slotArena slotArena_lawful edits rfl, hpath]
    rfl
  · rw [harena slotArena slotArena_lawful edits rfl, hloop]
    rfl

/-- Two nodes lead to each other, so each leads to itself, but the answer to that is no. -/
theorem hasPath_misses_cycle :
    let g := Graph.ofEdges [("a", "b"), ("b", "a")]
    g.hasPath "a" "b" = .ok true ∧ g.hasPath "b" "a" = .ok true ∧
      Relation.TransGen g.Dependency "a" "a" ∧ g.hasPath "a" "a" = .ok false := by
  intro g
  have hab : g.Dependency "a" "b" := show g.kind? "a" "b" = _ by decide +kernel
  have hba : g.Dependency "b" "a" := show g.kind? "b" "a" = _ by decide +kernel
  exact ⟨by decide +kernel, by decide +kernel, .tail (.single hab) hba, by decide +kernel⟩

end Lineage
