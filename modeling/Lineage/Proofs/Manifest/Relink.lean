import Lineage.Proofs.Manifest.Neighbourhood

/-!
# Partial re-parses

Relinking brings one identity of a graph up to date with a manifest and leaves everything that does
not touch it (`contains_renew`, `kind?_renew`). What a graph is after several relinks depends on which
identities were relinked, and not on their order (`Renewed`): an edge that was passed over because its
other end was missing is added when that end comes, and an edge to a node that is going to be removed
goes with it. So relinking whatever differs between two manifests leads from the graph of one to the
graph of the other (`relinkAll_converges`).
-/

namespace Lineage.Manifest

variable {m m' : Manifest} {g h : Graph} {id u v : NodeId} {ids done : List NodeId}

/-! ## Manifests that can be linked -/

/-- Everything that counts as a dependency is a member. -/
def Closed (m : Manifest) : Prop := ∀ u v, u ∈ m.parentsOf v → u ∈ m.memberIds

theorem closed_iff : m.Closed ↔ m.stranger? (m.counted m.members) = none := by
  rw [stranger?_eq_none_iff]
  constructor
  · intro hm u hu
    obtain ⟨v, hv⟩ := mem_counted.1 hu
    exact hm u v hv
  · intro hm u v hv
    exact hm u (mem_counted.2 ⟨v, hv⟩)

theorem linkIncremental_eq_ok (hg : m.linkIncremental = .ok g) :
    m.Closed ∧ Graph.Links g (· ∈ m.memberIds) fun u v => u ∈ m.parentsOf v := by
  have hspec := linkIncremental_spec m
  cases hs : m.stranger? (m.counted m.members) with
  | some id =>
    rw [hs, hg] at hspec
    cases hspec
  | none =>
    rw [hs] at hspec
    obtain ⟨g', hg', hlinks⟩ := hspec
    rw [hg] at hg'
    cases hg'
    exact ⟨closed_iff.2 hs, hlinks⟩

/-! ## One relink -/

/-- The graph after a relink that succeeds. -/
def renew (m : Manifest) (id : NodeId) (g : Graph) : Graph :=
  if m.parentMap.contains id then m.enter id g else g.eraseNode id

theorem relink_of_closed (hm : m.Closed) : m.relink id g = (m.renew id g, .ok ()) := by
  unfold renew
  by_cases hid : m.parentMap.contains id = true
  · have hmet : ∀ p ∈ m.parentsOf id, m.Met g p := fun p hp => .inr (mem_memberIds_iff.1 (hm p id hp))
    rw [if_pos hid, relink_of_met (Std.ExtTreeMap.contains_iff_mem.1 hid) hmet]
  · rw [if_neg hid, relink_of_not_mem fun h => hid (Std.ExtTreeMap.contains_iff_mem.2 h)]

theorem contains_renew :
    (m.renew id g).contains u = true ↔ if u = id then u ∈ m.memberIds else g.contains u = true := by
  unfold renew
  by_cases hid : m.parentMap.contains id = true
  · rw [if_pos hid, contains_enter]
    by_cases hu : u = id
    · simp [hu, contains_parentMap.1 hid]
    · simp [hu]
  · rw [if_neg hid, Graph.contains_eraseNode]
    rw [contains_parentMap] at hid
    by_cases hu : u = id
    · simp [hu, hid]
    · simp [hu, Ne.symm hu]

/-- Edges that touch what was relinked are those that the manifest asks for. -/
theorem kind?_renew :
    (m.renew id g).kind? u v =
      if u = id ∨ v = id then m.wanted? (m.renew id g) u v else g.kind? u v := by
  unfold renew
  by_cases hid : m.parentMap.contains id = true
  · rw [if_pos hid, kind?_enter]
  · rw [if_neg hid, Graph.kind?_eraseNode]
    unfold wanted?
    by_cases hu : u = id
    · simp [hu]
    · by_cases hv : v = id
      · simp [hv]
      · simp [hu, hv, Ne.symm hu, Ne.symm hv]

/-! ## Several relinks -/

/-- Relinks these identities one after the other, up to the first error. -/
def relinkAll (m : Manifest) (ids : List NodeId) (g : Graph) : Except GraphError Graph :=
  ids.foldlM (fun g id =>
    match m.relink id g with
    | (g, .ok ()) => .ok g
    | (_, .error e) => .error e) g

/-- `h` is `g` brought up to date with the manifest at these identities and unchanged elsewhere. -/
structure Renewed (m : Manifest) (ids : List NodeId) (g h : Graph) : Prop where
  nodes : ∀ u, h.contains u = true ↔ if u ∈ ids then u ∈ m.memberIds else g.contains u = true
  edges : ∀ u v, h.kind? u v = if u ∈ ids ∨ v ∈ ids then m.wanted? h u v else g.kind? u v

theorem Renewed.nil : Renewed m [] g g := ⟨fun u => by simp, fun u v => by simp⟩

/-- Which edges a manifest asks for depends only on which ends are there. -/
theorem wanted?_congr (hu : g.contains u = h.contains u) (hv : g.contains v = h.contains v) :
    m.wanted? g u v = m.wanted? h u v := by
  unfold wanted?
  rw [hu, hv]

/-- One more relink. -/
theorem Renewed.renew (hh : Renewed m ids g h) : Renewed m (ids ++ [id]) g (m.renew id h) := by
  have hkeep : ∀ w, w ≠ id → (m.renew id h).contains w = h.contains w := by
    intro w hw
    rw [Bool.eq_iff_iff, contains_renew, if_neg hw]
  refine ⟨fun u => ?_, fun u v => ?_⟩
  · rw [contains_renew, hh.nodes]
    by_cases hu : u = id
    · simp [hu]
    · simp [hu]
  · rw [kind?_renew, hh.edges]
    by_cases hu : u = id
    · simp [hu]
    · by_cases hv : v = id
      · simp [hv]
      · simp [hu, hv, wanted?_congr (m := m) (hkeep u hu) (hkeep v hv)]

/-- Relinks with a manifest that can be linked never fail. -/
theorem relinkAll_spec (hm : m.Closed) (ids : List NodeId) (g : Graph) :
    ∃ h, m.relinkAll ids g = .ok h ∧ Renewed m ids g h := by
  induction ids using List.reverseRec with
  | nil => exact ⟨g, rfl, .nil⟩
  | append_singleton ids id ih =>
    obtain ⟨h, hids, hh⟩ := ih
    refine ⟨m.renew id h, ?_, hh.renew⟩
    unfold relinkAll at hids ⊢
    rw [List.foldlM_append, hids]
    simp [relink_of_closed hm, bind, Except.bind, pure, Except.pure]

/-! ## Convergence -/

/-- The parents that count for `id`, without their order; `none` if it is no member. -/
def parentSet? (m : Manifest) (id : NodeId) : Option NodeSet :=
  m.parentMap[id]?.map fun parents => Std.ExtTreeSet.ofList parents

theorem of_parentSet?_eq (h : m.parentSet? id = m'.parentSet? id) :
    (id ∈ m.memberIds ↔ id ∈ m'.memberIds) ∧ ∀ p, p ∈ m.parentsOf id ↔ p ∈ m'.parentsOf id := by
  unfold parentSet? at h
  rw [← contains_parentMap, ← contains_parentMap, Std.ExtTreeMap.contains_eq_isSome_getElem?,
    Std.ExtTreeMap.contains_eq_isSome_getElem?]
  unfold parentsOf
  rw [Std.ExtTreeMap.getD_eq_getD_getElem?, Std.ExtTreeMap.getD_eq_getD_getElem?]
  cases hm : m.parentMap[id]? with
  | none =>
    cases hm' : m'.parentMap[id]? with
    | none => simp
    | some parents' => simp [hm, hm'] at h
  | some parents =>
    cases hm' : m'.parentMap[id]? with
    | none => simp [hm, hm'] at h
    | some parents' =>
      rw [hm, hm', Option.map_some, Option.map_some, Option.some.injEq] at h
      refine ⟨Iff.rfl, fun p => ?_⟩
      rw [Option.getD_some, Option.getD_some, ← Graph.mem_ofList, h, Graph.mem_ofList]

theorem eq_of_not_mem {β : Type} {f f' : NodeId → β} (h : ∀ id, f id ≠ f' id → id ∈ ids)
    (hid : id ∉ ids) : f id = f' id := by
  by_contra hne
  exact hid (h id hne)

/-- Where two functions agree outside a list, it is enough to look for differences in the list. -/
theorem forall_ne_iff {β : Type} {f f' : NodeId → β} {l : List NodeId} (h : ∀ id, id ∉ l → f id = f' id) :
    (∀ id, f id ≠ f' id → id ∈ ids) ↔ ∀ id ∈ l, f id ≠ f' id → id ∈ ids := by
  refine ⟨fun hall id _ => hall id, fun hall id hne => ?_⟩
  by_cases hid : id ∈ l
  · exact hall id hid hne
  · exact absurd (h id hid) hne

/-- Only members can differ. -/
theorem forall_parentSet?_ne_iff :
    (∀ id, m.parentSet? id ≠ m'.parentSet? id → id ∈ ids) ↔
      ∀ id ∈ m.memberIds ++ m'.memberIds, m.parentSet? id ≠ m'.parentSet? id → id ∈ ids := by
  have hnone : ∀ (n : Manifest) (id : NodeId), id ∉ n.memberIds → n.parentSet? id = none := by
    intro n id hn
    rw [mem_memberIds_iff] at hn
    unfold parentSet?
    rw [Std.ExtTreeMap.getElem?_eq_none hn, Option.map_none]
  apply forall_ne_iff
  intro id hid
  rw [List.mem_append, not_or] at hid
  rw [hnone m id hid.1, hnone m' id hid.2]

/-- **Partial re-parses converge in any order.** Relinking, in any order and with any repetitions, at
least the identities that have other parents in the new manifest or are members of one manifest only
leads from the graph of the old manifest to the graph of the new one, without an error. -/
theorem relinkAll_converges {g' : Graph} (hg : m.linkIncremental = .ok g)
    (hg' : m'.linkIncremental = .ok g') (hids : ∀ id, m.parentSet? id ≠ m'.parentSet? id → id ∈ ids) :
    m'.relinkAll ids g = .ok g' := by
  obtain ⟨-, hlinks⟩ := linkIncremental_eq_ok hg
  obtain ⟨hclosed, hlinks'⟩ := linkIncremental_eq_ok hg'
  have hsame : ∀ id, id ∉ ids → (id ∈ m.memberIds ↔ id ∈ m'.memberIds) ∧
      ∀ p, p ∈ m.parentsOf id ↔ p ∈ m'.parentsOf id := by
    intro id hid
    exact of_parentSet?_eq (eq_of_not_mem hids hid)
  obtain ⟨h, hh, hnew⟩ := relinkAll_spec hclosed ids g
  have hnode : ∀ u, h.contains u = true ↔ u ∈ m'.memberIds := by
    intro u
    rw [hnew.nodes]
    split
    · exact Iff.rfl
    · rename_i hu
      rw [hlinks.nodes, (hsame u hu).1]
  have hedge : ∀ u v kind, h.kind? u v = some kind ↔ kind = .dependency ∧ u ∈ m'.parentsOf v := by
    intro u v kind
    rw [hnew.edges]
    split
    · rw [wanted?_eq_some, hnode, hnode]
      refine and_congr_right fun _ => ⟨fun hp => hp.2.2, fun hp => ?_⟩
      exact ⟨hclosed u v hp, (declares_of_mem_parentsOf hp).mem_memberIds, hp⟩
    · rename_i htouch
      rw [not_or] at htouch
      rw [hlinks.edges, (hsame v htouch.2).2]
  have hlinks'' : Graph.Links h (· ∈ m'.memberIds) fun u v => u ∈ m'.parentsOf v := ⟨hnode, hedge⟩
  rw [hh, (hlinks''.eq_iff hlinks').2 fun _ _ => Iff.rfl]

/-- `c` is redefined, with itself among its parents, before `d` comes and `b` goes. -/
theorem relinkAll_redefined_first :
    let old := ofNodes [("a", .model, []), ("b", .model, ["a"]), ("c", .model, ["b"])]
    let new := ofNodes [("a", .model, []), ("c", .model, ["a", "c", "d"]), ("d", .model, ["a"])]
    let ids := ["c", "x", "b", "d", "c"]
    old.linkIncremental = .ok old.linkKnown ∧ new.linkIncremental = .ok new.linkKnown ∧
      (∀ id, old.parentSet? id ≠ new.parentSet? id → id ∈ ids) ∧
      new.relinkAll ids old.linkKnown = .ok new.linkKnown := by
  intro old new ids
  have hold : old.linkIncremental = .ok old.linkKnown := by decide +kernel
  have hnew : new.linkIncremental = .ok new.linkKnown := by decide +kernel
  have hids : ∀ id, old.parentSet? id ≠ new.parentSet? id → id ∈ ids :=
    forall_parentSet?_ne_iff.2 (by decide +kernel)
  exact ⟨hold, hnew, hids, relinkAll_converges hold hnew hids⟩

end Lineage.Manifest
