import Lineage.Manifest.Basic
import Mathlib.Data.List.Nodup
import Mathlib.Data.String.Basic

/-!
# Removing an artifact

Several collections can hold one identity. A removal and a lookup of the type both go through the collections in
one order (`remove_eq`, `fst_remove`), and tell the type by one rule. So what is removed is what the lookup would
answer with, and removals one after the other take the holders of an identity away in that order
(`remove_drains_holders`).
-/

namespace Lineage

namespace Manifest

/-! ## The collections that are searched -/

/-- A collection of artifacts. Disabled definitions are no artifacts. -/
inductive Shelf where
  | nodes
  | sources
  | macros
  | docs
  | groups
  | selectors
  | exposures
  | metrics
  | semanticModels
  | savedQueries
  | unitTests
deriving DecidableEq, Repr

namespace Shelf

/-- In the order in which they are searched. -/
def all : List Shelf :=
  [nodes, sources, macros, docs, groups, selectors, exposures, metrics, semanticModels, savedQueries, unitTests]

theorem mem_all (s : Shelf) : s ∈ all := by
  cases s <;> decide

theorem nodup_all : all.Nodup := by decide

/-- What stands in the collection. -/
def Record : Shelf → Type
  | nodes => Node
  | sources => Source
  | macros => MacroDef
  | docs => Doc
  | groups => Group
  | selectors => Json
  | exposures | metrics | semanticModels | savedQueries | unitTests => Resource

/-- The type of an artifact: that of its record if it is a node or a resource, and otherwise that of the
collection, whatever the record says. -/
def typeOf : (s : Shelf) → s.Record → ResourceType
  | nodes, n => Node.resourceType n
  | sources, _ => .source
  | macros, _ => .macroDef
  | docs, _ => .doc
  | groups, _ => .group
  | selectors, _ => .selector
  | exposures, r | metrics, r | semanticModels, r | savedQueries, r | unitTests, r => Resource.resourceType r

end Shelf

variable {m m' : Manifest} {id : NodeId} {s t : Shelf} {shelves : List Shelf}

def shelf (m : Manifest) : (s : Shelf) → Collection s.Record
  | .nodes => m.nodes
  | .sources => m.sources
  | .macros => m.macros
  | .docs => m.docs
  | .groups => m.groups
  | .selectors => m.selectors
  | .exposures => m.exposures
  | .metrics => m.metrics
  | .semanticModels => m.semanticModels
  | .savedQueries => m.savedQueries
  | .unitTests => m.unitTests

/-- The type that the identity has in a collection, if it stands there. -/
def typeIn (m : Manifest) (id : NodeId) (s : Shelf) : Option ResourceType := (m.shelf s)[id]?.map s.typeOf

def holds (m : Manifest) (id : NodeId) (s : Shelf) : Bool := (m.shelf s).contains id

/-- The collections that hold the identity, in the order in which they are searched. -/
def holders (m : Manifest) (id : NodeId) : List Shelf := Shelf.all.filter (m.holds id)

/-- The manifest without the identity in one collection. -/
def clear (m : Manifest) (id : NodeId) : Shelf → Manifest
  | .nodes => { m with nodes := m.nodes.erase id }
  | .sources => { m with sources := m.sources.erase id }
  | .macros => { m with macros := m.macros.erase id }
  | .docs => { m with docs := m.docs.erase id }
  | .groups => { m with groups := m.groups.erase id }
  | .selectors => { m with selectors := m.selectors.erase id }
  | .exposures => { m with exposures := m.exposures.erase id }
  | .metrics => { m with metrics := m.metrics.erase id }
  | .semanticModels => { m with semanticModels := m.semanticModels.erase id }
  | .savedQueries => { m with savedQueries := m.savedQueries.erase id }
  | .unitTests => { m with unitTests := m.unitTests.erase id }

theorem mem_holders : s ∈ m.holders id ↔ id ∈ m.shelf s := by
  rw [holders, List.mem_filter, and_iff_right s.mem_all, holds, Std.ExtTreeMap.contains_iff_mem]

theorem nodup_holders : (m.holders id).Nodup := Shelf.nodup_all.filter _

theorem shelf_clear_self : (m.clear id s).shelf s = (m.shelf s).erase id := by
  cases s <;> rfl

theorem shelf_clear_of_ne (h : t ≠ s) : (m.clear id s).shelf t = m.shelf t := by
  cases s <;> cases t <;> first | rfl | contradiction

/-! ## One search for both -/

/-- Goes through the collections up to the first that holds the identity. The answer is the type there and what is
left without it. -/
def takeFrom (m : Manifest) (id : NodeId) : List Shelf → Option ResourceType × Manifest
  | [] => (none, m)
  | s :: shelves =>
    match (m.shelf s)[id]? with
    | some r => (some (s.typeOf r), m.clear id s)
    | none => m.takeFrom id shelves

theorem exists_of_holds (h : m.holds id s = true) : ∃ r, (m.shelf s)[id]? = some r :=
  Option.isSome_iff_exists.1 (Std.ExtTreeMap.mem_iff_isSome_getElem?.1 (Std.ExtTreeMap.contains_iff_mem.1 h))

theorem takeFrom_of_some {r : s.Record} (h : (m.shelf s)[id]? = some r) :
    m.takeFrom id (s :: shelves) = (some (s.typeOf r), m.clear id s) := by
  rw [takeFrom, h]

theorem takeFrom_of_forall_ne (h : ∀ r, (m.shelf s)[id]? ≠ some r) :
    m.takeFrom id (s :: shelves) = m.takeFrom id shelves := by
  rw [takeFrom, Option.eq_none_iff_forall_ne_some.2 h]

/-- Where all records have one type, it is enough that there is one. -/
theorem takeFrom_of_holds {type : ResourceType} (htype : ∀ r, s.typeOf r = type) (h : m.holds id s = true) :
    m.takeFrom id (s :: shelves) = (some type, m.clear id s) := by
  obtain ⟨r, hr⟩ := exists_of_holds h
  rw [takeFrom_of_some hr, htype]

theorem takeFrom_of_not_holds (h : ¬ m.holds id s = true) :
    m.takeFrom id (s :: shelves) = m.takeFrom id shelves := by
  rw [takeFrom, Std.ExtTreeMap.getElem?_eq_none_of_contains_eq_false (Bool.not_eq_true _ ▸ h)]

theorem remove_eq : m.remove id = m.takeFrom id Shelf.all := by
  unfold remove Shelf.all
  split
  · exact (takeFrom_of_some (s := .nodes) ‹_›).symm
  rename_i hnodes
  rw [takeFrom_of_forall_ne (s := .nodes) hnodes]
  split
  · exact (takeFrom_of_holds (s := .sources) (fun _ => rfl) ‹_›).symm
  rename_i hsources
  rw [takeFrom_of_not_holds (s := .sources) hsources]
  split
  · exact (takeFrom_of_holds (s := .macros) (fun _ => rfl) ‹_›).symm
  rename_i hmacros
  rw [takeFrom_of_not_holds (s := .macros) hmacros]
  split
  · exact (takeFrom_of_holds (s := .docs) (fun _ => rfl) ‹_›).symm
  rename_i hdocs
  rw [takeFrom_of_not_holds (s := .docs) hdocs]
  split
  · exact (takeFrom_of_holds (s := .groups) (fun _ => rfl) ‹_›).symm
  rename_i hgroups
  rw [takeFrom_of_not_holds (s := .groups) hgroups]
  split
  · exact (takeFrom_of_holds (s := .selectors) (fun _ => rfl) ‹_›).symm
  rename_i hselectors
  rw [takeFrom_of_not_holds (s := .selectors) hselectors]
  split
  · exact (takeFrom_of_some (s := .exposures) ‹_›).symm
  rename_i hexposures
  rw [takeFrom_of_forall_ne (s := .exposures) hexposures]
  split
  · exact (takeFrom_of_some (s := .metrics) ‹_›).symm
  rename_i hmetrics
  rw [takeFrom_of_forall_ne (s := .metrics) hmetrics]
  split
  · exact (takeFrom_of_some (s := .semanticModels) ‹_›).symm
  rename_i hmodels
  rw [takeFrom_of_forall_ne (s := .semanticModels) hmodels]
  split
  · exact (takeFrom_of_some (s := .savedQueries) ‹_›).symm
  rename_i hqueries
  rw [takeFrom_of_forall_ne (s := .savedQueries) hqueries]
  split
  · exact (takeFrom_of_some (s := .unitTests) ‹_›).symm
  rename_i htests
  rw [takeFrom_of_forall_ne (s := .unitTests) htests]
  rfl

/-- The lookup asks the same questions in the same order. -/
theorem fst_remove : (m.remove id).1 = m.resourceTypeOf id := by
  simp only [remove, resourceTypeOf, resource?, resourceCollections, List.findSome?_cons, List.findSome?_nil]
  cases m.nodes[id]? with
  | some n => rfl
  | none =>
    dsimp only
    split_ifs
    all_goals try rfl
    cases m.exposures[id]? with
    | some r => rfl
    | none =>
    cases m.metrics[id]? with
    | some r => rfl
    | none =>
    cases m.semanticModels[id]? with
    | some r => rfl
    | none =>
    cases m.savedQueries[id]? with
    | some r => rfl
    | none =>
    cases m.unitTests[id]? <;> rfl

/-! ## The first holder -/

theorem takeFrom_eq :
    m.takeFrom id shelves =
      match shelves.filter (m.holds id) with
      | [] => (none, m)
      | s :: _ => (m.typeIn id s, m.clear id s) := by
  induction shelves with
  | nil => rfl
  | cons s shelves ih =>
    by_cases hs : m.holds id s = true
    · obtain ⟨r, hr⟩ := exists_of_holds hs
      rw [List.filter_cons_of_pos hs, takeFrom_of_some hr]
      show _ = (m.typeIn id s, m.clear id s)
      rw [typeIn, hr, Option.map_some]
    · rw [List.filter_cons_of_neg hs, takeFrom_of_not_holds hs, ih]

theorem remove_of_nil (h : m.holders id = []) : m.remove id = (none, m) := by
  rw [holders] at h
  rw [remove_eq, takeFrom_eq, h]

theorem remove_of_cons {rest : List Shelf} (h : m.holders id = s :: rest) :
    m.remove id = (m.typeIn id s, m.clear id s) := by
  rw [holders] at h
  rw [remove_eq, takeFrom_eq, h]

theorem typeIn_clear_of_ne (h : t ≠ s) : (m.clear id s).typeIn id t = m.typeIn id t := by
  rw [typeIn, typeIn, shelf_clear_of_ne h]

theorem holders_clear {rest : List Shelf} (h : m.holders id = s :: rest) : (m.clear id s).holders id = rest := by
  have hkeep : ∀ t, (m.clear id s).holds id t = (decide (t ≠ s) && m.holds id t) := by
    intro t
    by_cases ht : t = s
    · subst ht
      simp [holds, shelf_clear_self]
    · rw [holds, shelf_clear_of_ne ht, decide_eq_true ht, Bool.true_and, holds]
  have hs : s ∉ rest := (List.nodup_cons.1 (h ▸ nodup_holders)).1
  calc (m.clear id s).holders id
      = (m.holders id).filter fun t => decide (t ≠ s) := by
        rw [holders, holders, List.filter_filter]
        exact List.filter_congr fun t _ => hkeep t
    _ = rest.filter fun t => decide (t ≠ s) := by
        rw [h]
        exact List.filter_cons_of_neg (by simp)
    _ = rest := List.filter_eq_self.2 fun t ht => decide_eq_true (ne_of_mem_of_not_mem ht hs)

/-! ## Removals one after the other -/

/-- The manifest differs in nothing but that these collections are without the identity. -/
structure Cleared (m : Manifest) (id : NodeId) (gone : List Shelf) (m' : Manifest) : Prop where
  shelf (s : Shelf) : m'.shelf s = if s ∈ gone then (m.shelf s).erase id else m.shelf s
  metadata : m'.metadata = m.metadata
  disabled : m'.disabled = m.disabled
  extra : m'.extra = m.extra

theorem Cleared.nil : m.Cleared id [] m := ⟨fun _ => rfl, rfl, rfl, rfl⟩

theorem Cleared.cons {gone : List Shelf} (hs : s ∉ gone) (h : (m.clear id s).Cleared id gone m') :
    m.Cleared id (s :: gone) m' where
  shelf t := by
    rw [h.shelf]
    by_cases ht : t = s
    · subst ht
      rw [if_neg hs, if_pos List.mem_cons_self, shelf_clear_self]
    · simp only [List.mem_cons, ht, false_or, shelf_clear_of_ne ht]
  metadata := by
    rw [h.metadata]
    cases s <;> rfl
  disabled := by
    rw [h.disabled]
    cases s <;> rfl
  extra := by
    rw [h.extra]
    cases s <;> rfl

/-- Removes the identity several times, with the answers in order. -/
def removeTimes (m : Manifest) (id : NodeId) : Nat → List (Option ResourceType) × Manifest
  | 0 => ([], m)
  | k + 1 =>
    let (answer, rest) := m.remove id
    let (answers, left) := rest.removeTimes id k
    (answer :: answers, left)

theorem removeTimes_eq (m : Manifest) (id : NodeId) (k : Nat) :
    (m.removeTimes id k).1 = (List.range k).map (fun i => (m.holders id)[i]?.bind (m.typeIn id)) ∧
      m.Cleared id ((m.holders id).take k) (m.removeTimes id k).2 := by
  induction k generalizing m with
  | zero => exact ⟨rfl, .nil⟩
  | succ k ih =>
    rw [removeTimes, List.range_succ_eq_map, List.map_cons, List.map_map]
    cases hholders : m.holders id with
    | nil =>
      obtain ⟨hanswers, hleft⟩ := ih m
      rw [hholders] at hanswers hleft
      rw [List.take_nil] at hleft
      rw [remove_of_nil hholders, List.take_nil]
      exact ⟨congrArg _ hanswers, hleft⟩
    | cons s rest =>
      obtain ⟨hanswers, hleft⟩ := ih (m.clear id s)
      rw [holders_clear hholders] at hanswers hleft
      have hs : s ∉ rest := (List.nodup_cons.1 (hholders ▸ nodup_holders)).1
      rw [remove_of_cons hholders]
      refine ⟨congrArg _ (hanswers.trans (List.map_congr_left fun i _ => ?_)),
        .cons (fun hmem => hs (List.mem_of_mem_take hmem)) hleft⟩
      refine Option.bind_congr fun t ht => typeIn_clear_of_ne ?_
      exact ne_of_mem_of_not_mem (List.mem_of_getElem? ht) hs

/-- Once all holders are gone, no collection holds the identity. -/
theorem Cleared.not_mem {gone : List Shelf} (h : m.Cleared id gone m') (hall : ∀ s ∈ m.holders id, s ∈ gone)
    (s : Shelf) : id ∉ m'.shelf s := by
  rw [h.shelf]
  split
  · simp
  · rename_i hkept
    exact fun hmem => hkept (hall s (mem_holders.2 hmem))

/-- **Removing drains the holders of an identity.** A removal answers with the type that a lookup would answer
with. It takes the identity out of the first collection that holds it, which is where that type is told, and
changes nothing else; the lookup then answers for the next holder. Removals one after the other take the holders
away in order, each with the type told there, and when none is left answer with nothing. -/
theorem remove_drains_holders (m : Manifest) (id : NodeId) :
    (∀ s, s ∈ m.holders id ↔ id ∈ m.shelf s) ∧
      (m.remove id).1 = m.resourceTypeOf id ∧
      m.resourceTypeOf id = (m.holders id)[0]?.bind (m.typeIn id) ∧
      m.Cleared id ((m.holders id).take 1) (m.remove id).2 ∧
      (m.remove id).2.resourceTypeOf id = (m.holders id)[1]?.bind (m.typeIn id) ∧
      ∀ k, (m.removeTimes id k).1 = (List.range k).map (fun i => (m.holders id)[i]?.bind (m.typeIn id)) ∧
        m.Cleared id ((m.holders id).take k) (m.removeTimes id k).2 ∧
        ((m.holders id).length ≤ k → ∀ s, id ∉ (m.removeTimes id k).2.shelf s) := by
  have hanswers := (removeTimes_eq m id 2).1
  obtain ⟨hfirst, hrest⟩ := List.cons.inj hanswers
  obtain ⟨hsecond, -⟩ := List.cons.inj hrest
  refine ⟨fun _ => mem_holders, fst_remove, fst_remove.symm.trans hfirst, (removeTimes_eq m id 1).2,
    fst_remove.symm.trans hsecond, fun k => ?_⟩
  obtain ⟨hanswers, hleft⟩ := removeTimes_eq m id k
  refine ⟨hanswers, hleft, fun hk => hleft.not_mem fun s hs => ?_⟩
  rwa [List.take_of_length_le hk]

end Manifest

end Lineage
