import Lineage.Proofs.Manifest.Link

/-!
# What a relink touches

A relink rebuilds what is around one identity, in a graph that need not agree with the manifest. All the
rest stays as it was, also if the relink ends early (`sameBut_enterBelow`). What is then around the identity is
told by the manifest and by what the graph holds (`relink_frame`).
-/

namespace Lineage.Manifest

variable {m : Manifest} {g : Graph} {id u v : NodeId} {parents : List NodeId}

/-! ## Around one identity -/

/-- The graphs have the same nodes but for `id`, and the same edges that do not touch it. -/
structure SameBut (id : NodeId) (g h : Graph) : Prop where
  nodes : ∀ u, u ≠ id → h.contains u = g.contains u
  edges : ∀ u v, u ≠ id → v ≠ id → h.kind? u v = g.kind? u v

/-- The edges that touch `id` are dependencies, namely these. -/
def LinksAt (h : Graph) (id : NodeId) (dep : NodeId → NodeId → Prop) : Prop :=
  ∀ u v kind, u = id ∨ v = id → (h.kind? u v = some kind ↔ kind = .dependency ∧ dep u v)

theorem sameBut_eraseNode : SameBut id g (g.eraseNode id) where
  nodes u hu := by simp [Ne.symm hu]
  edges u v hu hv := by simp [Ne.symm hu, Ne.symm hv]

theorem linksAt_eraseNode : LinksAt (g.eraseNode id) id fun _ _ => False := by
  intro u v kind htouch
  rw [Graph.kind?_eraseNode, if_pos (htouch.imp Eq.symm Eq.symm)]
  simp

/-! ## Edges from parents -/

theorem contains_enterBelow :
    (enterBelow parents id g).contains u = true ↔ u = id ∨ g.contains u = true := by
  unfold enterBelow Graph.insertDependencies
  rw [Graph.contains_insertEdges, contains_renewed]

theorem kind?_enterBelow :
    (enterBelow parents id g).kind? u v =
      if v = id ∧ u ∈ parents ∧ (enterBelow parents id g).contains u = true then some .dependency
      else if u = id ∨ v = id then none
      else g.kind? u v := by
  have hpair : (u, v) ∈ parents.map (·, id) ↔ v = id ∧ u ∈ parents := by
    simp only [List.mem_map, Prod.mk.injEq]
    exact ⟨fun ⟨p, hp, hu, hv⟩ => ⟨hv.symm, hu ▸ hp⟩, fun ⟨hv, hu⟩ => ⟨u, hu, rfl, hv.symm⟩⟩
  simp only [contains_enterBelow]
  unfold enterBelow Graph.insertDependencies
  simp only [Graph.kind?_insertEdges, hpair, contains_renewed, Graph.kind?_insertNode, Graph.kind?_eraseNode,
    eq_comm (a := id)]
  by_cases hv : v = id
  · simp [hv]
  · simp [hv]

theorem sameBut_enterBelow : SameBut id g (enterBelow parents id g) where
  nodes u hu := by rw [Bool.eq_iff_iff, contains_enterBelow, or_iff_right hu]
  edges u v hu hv := by simp [kind?_enterBelow, hu, hv]

theorem linksAt_enterBelow :
    LinksAt (enterBelow parents id g) id fun u v =>
      v = id ∧ u ∈ parents ∧ (enterBelow parents id g).contains u = true := by
  intro u v kind htouch
  rw [kind?_enterBelow, if_pos htouch]
  split
  · rename_i hdep
    simp [hdep, eq_comm]
  · rename_i hdep
    simp [hdep]

/-! ## All edges -/

theorem sameBut_enter : SameBut id g (m.enter id g) where
  nodes u hu := by rw [Bool.eq_iff_iff, contains_enter, or_iff_right hu]
  edges u v hu hv := by simp [kind?_enter, hu, hv]

theorem linksAt_enter :
    LinksAt (m.enter id g) id fun u v =>
      (m.enter id g).contains u = true ∧ (m.enter id g).contains v = true ∧
        (v = id ∧ u ∈ m.parentsOf id ∨ u = id ∧ v ∈ m.childrenOf id) := by
  intro u v kind htouch
  have hside : u ∈ m.parentsOf v ↔ v = id ∧ u ∈ m.parentsOf id ∨ u = id ∧ v ∈ m.childrenOf id := by
    constructor
    · intro hu
      rcases htouch with rfl | rfl
      · exact .inr ⟨rfl, mem_childrenOf.2 hu⟩
      · exact .inl ⟨rfl, hu⟩
    · rintro (⟨rfl, hu⟩ | ⟨rfl, hu⟩)
      · exact hu
      · exact mem_childrenOf.1 hu
  rw [kind?_enter, if_pos htouch, wanted?_eq_some, hside]

/-! ## Relinking -/

/-- The parent is in the graph or in the parent map. -/
def Met (m : Manifest) (g : Graph) (p : NodeId) : Prop := g.contains p = true ∨ p ∈ m.parentMap

theorem met_iff : (g.contains p || m.parentMap.contains p) = true ↔ m.Met g p := by
  unfold Met
  rw [Bool.or_eq_true, Std.ExtTreeMap.contains_iff_mem]

theorem relink_of_not_mem (hid : id ∉ m.parentMap) : m.relink id g = (g.eraseNode id, .ok ()) := by
  rw [← Std.ExtTreeMap.contains_iff_mem] at hid
  unfold relink
  rw [if_neg hid]

theorem relink_of_mem (hid : id ∈ m.parentMap) : m.relink id g = attach m.parentMap m.childMap id g := by
  rw [← Std.ExtTreeMap.contains_iff_mem] at hid
  unfold relink
  rw [if_pos hid]

theorem relink_of_met (hid : id ∈ m.parentMap) (h : ∀ p ∈ m.parentsOf id, m.Met g p) :
    m.relink id g = (m.enter id g, .ok ()) := by
  have hnone : m.unmet? g id = none := by
    unfold unmet?
    rw [List.find?_eq_none]
    intro p hp
    rw [Bool.not_eq_true', Bool.not_eq_false, met_iff]
    exact h p hp
  rw [relink_of_mem hid, attach_eq (mem_memberIds_iff.2 hid), hnone]

/-- A relink that fails stops at the first parent that is not met. -/
theorem exists_relink_of_not_met (hid : id ∈ m.parentMap) (h : ¬ ∀ p ∈ m.parentsOf id, m.Met g p) :
    ∃ before p after, m.parentsOf id = before ++ p :: after ∧ ¬ m.Met g p ∧ (∀ q ∈ before, m.Met g q) ∧
      m.relink id g = (enterBelow before id g, .error (.unknownNode p)) := by
  have hattach := attach_eq (g := g) (mem_memberIds_iff.2 hid)
  rw [relink_of_mem hid]
  cases hu : m.unmet? g id with
  | none =>
    refine absurd (fun p hp => met_iff.1 ?_) h
    have hp := List.find?_eq_none.1 hu p hp
    rwa [Bool.not_eq_true', Bool.not_eq_false] at hp
  | some p =>
    obtain ⟨hp, before, after, hsplit, hbefore⟩ := List.find?_eq_some_iff_append.1 hu
    rw [Bool.not_eq_true', ← Bool.not_eq_true] at hp
    have hmet : ∀ q ∈ before, (g.contains q || m.parentMap.contains q) = true := by
      intro q hq
      simpa only [Bool.not_not] using hbefore q hq
    -- what was taken up before the end are just the parents in front of it
    have htake : (m.parentsOf id).takeWhile (fun q => g.contains q || m.parentMap.contains q) = before := by
      rw [hsplit, List.takeWhile_append_of_pos hmet, List.takeWhile_cons, if_neg hp, List.append_nil]
    rw [hu, htake] at hattach
    exact ⟨before, p, after, hsplit, fun h => hp (met_iff.2 h), fun q hq => met_iff.1 (hmet q hq), hattach⟩

/-- **What a relink touches.** Whether it succeeds or not, all nodes but the relinked one and all edges that
do not touch it stay. What is not in the parent map is removed. Anything else is a node afterwards, and the
relink succeeds exactly if each of its parents is in the graph or in the parent map. Then the edges that
touch it are dependencies, from its parents and to its children as far as they are in the graph. Otherwise
the first parent that is in neither is refused, and there are edges only from those before it that are in
the graph. -/
theorem relink_frame (m : Manifest) (id : NodeId) (g : Graph) :
    ∃ h outcome, m.relink id g = (h, outcome) ∧ SameBut id g h ∧
      (id ∉ m.parentMap →
        outcome = .ok () ∧ h.contains id = false ∧ LinksAt h id fun _ _ => False) ∧
      ∀ parents, m.parentMap[id]? = some parents →
        h.contains id = true ∧
        (outcome = .ok () ↔ ∀ p ∈ parents, g.contains p = true ∨ p ∈ m.parentMap) ∧
        (outcome = .ok () → LinksAt h id fun u v => h.contains u = true ∧ h.contains v = true ∧
          (v = id ∧ u ∈ parents ∨ u = id ∧ v ∈ m.childMap.getD id [])) ∧
        ∀ e, outcome = .error e → ∃ before p after, parents = before ++ p :: after ∧
          e = .unknownNode p ∧ ¬ (g.contains p = true ∨ p ∈ m.parentMap) ∧
          (∀ q ∈ before, g.contains q = true ∨ q ∈ m.parentMap) ∧
          LinksAt h id fun u v => v = id ∧ u ∈ before ∧ h.contains u = true := by
  by_cases hid : id ∈ m.parentMap
  · have hparentsOf : ∀ parents, m.parentMap[id]? = some parents → m.parentsOf id = parents :=
      fun _ hparents => getD_of_getElem? hparents
    by_cases hmet : ∀ p ∈ m.parentsOf id, m.Met g p
    · refine ⟨m.enter id g, .ok (), relink_of_met hid hmet, sameBut_enter, fun h => absurd hid h,
        fun parents hparents => ?_⟩
      obtain rfl := hparentsOf parents hparents
      exact ⟨contains_enter.2 (.inl rfl), iff_of_true rfl hmet, fun _ => linksAt_enter,
        fun e he => by cases he⟩
    · obtain ⟨before, p, after, hsplit, hp, hbefore, hrelink⟩ := exists_relink_of_not_met hid hmet
      refine ⟨enterBelow before id g, .error (.unknownNode p), hrelink, sameBut_enterBelow,
        fun h => absurd hid h, fun parents hparents => ?_⟩
      obtain rfl := hparentsOf parents hparents
      refine ⟨contains_enterBelow.2 (.inl rfl), iff_of_false (by simp) hmet, fun h => by simp at h,
        fun e he => ?_⟩
      cases he
      exact ⟨before, p, after, hsplit, rfl, hp, hbefore, linksAt_enterBelow⟩
  · refine ⟨g.eraseNode id, .ok (), relink_of_not_mem hid, sameBut_eraseNode,
      fun _ => ⟨rfl, by simp, linksAt_eraseNode⟩, fun parents hparents => absurd ?_ hid⟩
    rw [Std.ExtTreeMap.mem_iff_isSome_getElem?, hparents]
    rfl

/-- `a` is its own parent and has `b` for a parent and a child, and the member `gone` is not in the graph.
The second manifest asks for `z`, which nobody knows. -/
theorem relink_frame_stale :
    let m := ofNodes [("a", .model, ["gone", "b", "a", "old"]), ("b", .model, ["a"]), ("gone", .model, [])]
    let m' := ofNodes [("a", .model, ["b", "z", "old"]), ("b", .model, ["a"])]
    let g := ((Graph.ofEdges [("old", "b"), ("a", "old")]).insertEdge "b" "a" .parentTest).insertEdge
      "b" "old" .parentTest
    m.parentMap["a"]? = some ["gone", "b", "a", "old"] ∧ m'.parentMap["a"]? = some ["b", "z", "old"] ∧
      (∃ h, m.relink "a" g = (h, .ok ()) ∧ h.kind? "b" "old" = some .parentTest ∧
        h.kind? "a" "old" = none ∧ h.kind? "b" "a" = some .dependency) ∧
      ∃ h, m'.relink "a" g = (h, .error (.unknownNode "z")) ∧ h.kind? "old" "b" = some .dependency ∧
        h.kind? "a" "b" = none := by
  intro m m' g
  have hparents : m.parentMap["a"]? = some ["gone", "b", "a", "old"] := by decide +kernel
  have hparents' : m'.parentMap["a"]? = some ["b", "z", "old"] := by decide +kernel
  refine ⟨hparents, hparents', ?_, ?_⟩
  · obtain ⟨h, outcome, hrelink, hsame, -, hmember⟩ := relink_frame m "a" g
    obtain ⟨ha, hok, hlinks, -⟩ := hmember _ hparents
    have hmet : outcome = .ok () := hok.2 (by decide +kernel)
    have hb : h.contains "b" = true := by
      rw [hsame.nodes "b" (by decide)]
      decide +kernel
    subst hmet
    refine ⟨h, hrelink, ?_, ?_, ?_⟩
    · rw [hsame.edges "b" "old" (by decide) (by decide)]
      decide +kernel
    · rw [Option.eq_none_iff_forall_ne_some]
      intro kind hkind
      obtain ⟨-, -, -, hdep⟩ := (hlinks rfl "a" "old" kind (.inl rfl)).1 hkind
      exact absurd hdep (by decide +kernel)
    · exact (hlinks rfl "b" "a" _ (.inr rfl)).2 ⟨rfl, hb, ha, .inl ⟨rfl, by decide⟩⟩
  · have hfirst : ∀ p ∈ ["b", "z", "old"], ¬ (g.contains p = true ∨ p ∈ m'.parentMap) → p = "z" := by
      decide +kernel
    obtain ⟨h, outcome, hrelink, hsame, -, hmember⟩ := relink_frame m' "a" g
    obtain ⟨-, hok, -, herror⟩ := hmember _ hparents'
    cases outcome with
    | ok => exact absurd (hok.1 rfl) (by decide +kernel)
    | error e =>
      obtain ⟨before, p, after, hsplit, rfl, hp, -, hlinks⟩ := herror e rfl
      obtain rfl : p = "z" := hfirst p (by simp [hsplit]) hp
      refine ⟨h, hrelink, ?_, ?_⟩
      · rw [hsame.edges "old" "b" (by decide) (by decide)]
        decide +kernel
      · rw [Option.eq_none_iff_forall_ne_some]
        intro kind hkind
        exact absurd ((hlinks "a" "b" kind (.inl rfl)).1 hkind).2.1 (by decide)

end Lineage.Manifest
