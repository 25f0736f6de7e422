import Lineage.Graph.Reach
import Mathlib.Data.List.Nodup

/-!
# Arenas

An arena is a directed multigraph that names its nodes and edges by indices. An index stays as it is
while other nodes and edges come and go; once its own node or edge is removed, it may be given out
again. Nothing here knows how an arena does that: `Arena` lists the operations, and `Arena.Lawful` what
each of them does to the nodes and edges in use.

`slotArena` is an arena that is known to be lawful. It keeps nodes and edges in slots, and gives out the
slot that was freed last before it adds a new one.
-/

namespace Lineage

open Lineage.Graph (Direction)

/-- An edge of an arena: the indices of its ends, and its kind. -/
structure ArenaEdge where
  source : Nat
  target : Nat
  kind : EdgeKind
deriving DecidableEq, Repr

namespace ArenaEdge

/-- The end that a traversal this way comes from. -/
def near (way : Direction) (a : ArenaEdge) : Nat :=
  match way with
  | .forward => a.source
  | .backward => a.target

/-- The end that a traversal this way goes to. -/
def far (way : Direction) (a : ArenaEdge) : Nat :=
  match way with
  | .forward => a.target
  | .backward => a.source

def touches (a : ArenaEdge) (i : Nat) : Bool := a.source == i || a.target == i

end ArenaEdge

/-- The operations of an arena. -/
structure Arena where
  State : Type
  empty : State
  /-- The identity of a node, by index. -/
  node? : State → Nat → Option NodeId
  edge? : State → Nat → Option ArenaEdge
  addNode : State → NodeId → Nat × State
  /-- Removes a node and the edges that touch it. -/
  removeNode : State → Nat → State
  addEdge : State → ArenaEdge → Nat × State
  /-- Removes an edge; the answer is its kind, if there was one. -/
  removeEdge : State → Nat → Option EdgeKind × State
  setKind : State → Nat → EdgeKind → State
  /-- Some edge from one node to another. -/
  findEdge : State → Nat → Nat → Option Nat
  nodeIndices : State → List Nat
  /-- All edges with their indices. -/
  edgeRefs : State → List (Nat × ArenaEdge)
  /-- The edges that leave a node, or those that enter it. -/
  edgesAt : State → Direction → Nat → List (Nat × ArenaEdge)
  /-- The other ends of these edges. -/
  neighboursAt : State → Direction → Nat → List Nat
  nodeCount : State → Nat
  edgeCount : State → Nat

/-- What the operations do. Lists are in no particular order. -/
structure Arena.Lawful (A : Arena) : Prop where
  node?_empty : ∀ i, A.node? A.empty i = none
  edge?_empty : ∀ e, A.edge? A.empty e = none
  addNode_fresh : ∀ s id, A.node? s (A.addNode s id).1 = none
  node?_addNode : ∀ s id i,
    A.node? (A.addNode s id).2 i = if i = (A.addNode s id).1 then some id else A.node? s i
  edge?_addNode : ∀ s id e, A.edge? (A.addNode s id).2 e = A.edge? s e
  node?_removeNode : ∀ s i j, A.node? (A.removeNode s i) j = if j = i then none else A.node? s j
  edge?_removeNode : ∀ s i e, A.edge? (A.removeNode s i) e = (A.edge? s e).filter fun a => !a.touches i
  addEdge_fresh : ∀ s a, (A.node? s a.source).isSome → (A.node? s a.target).isSome →
    A.edge? s (A.addEdge s a).1 = none
  node?_addEdge : ∀ s a i, (A.node? s a.source).isSome → (A.node? s a.target).isSome →
    A.node? (A.addEdge s a).2 i = A.node? s i
  edge?_addEdge : ∀ s a e, (A.node? s a.source).isSome → (A.node? s a.target).isSome →
    A.edge? (A.addEdge s a).2 e = if e = (A.addEdge s a).1 then some a else A.edge? s e
  removeEdge_fst : ∀ s e, (A.removeEdge s e).1 = (A.edge? s e).map ArenaEdge.kind
  node?_removeEdge : ∀ s e i, A.node? (A.removeEdge s e).2 i = A.node? s i
  edge?_removeEdge : ∀ s e e',
    A.edge? (A.removeEdge s e).2 e' = if e' = e then none else A.edge? s e'
  node?_setKind : ∀ s e kind i, A.node? (A.setKind s e kind) i = A.node? s i
  edge?_setKind : ∀ s e kind e', A.edge? (A.setKind s e kind) e' =
    if e' = e then (A.edge? s e).map ({ · with kind }) else A.edge? s e'
  findEdge_some : ∀ s i j e, A.findEdge s i j = some e → ∃ kind, A.edge? s e = some ⟨i, j, kind⟩
  findEdge_none : ∀ s i j, A.findEdge s i j = none → ∀ e kind, A.edge? s e ≠ some ⟨i, j, kind⟩
  nodup_nodeIndices : ∀ s, (A.nodeIndices s).Nodup
  mem_nodeIndices : ∀ s i, i ∈ A.nodeIndices s ↔ (A.node? s i).isSome
  nodup_edgeRefs : ∀ s, (A.edgeRefs s).Nodup
  mem_edgeRefs : ∀ s e a, (e, a) ∈ A.edgeRefs s ↔ A.edge? s e = some a
  nodup_edgesAt : ∀ s way i, (A.edgesAt s way i).Nodup
  mem_edgesAt : ∀ s way i e a, (e, a) ∈ A.edgesAt s way i ↔ A.edge? s e = some a ∧ a.near way = i
  neighboursAt_perm : ∀ s way i,
    (A.neighboursAt s way i).Perm ((A.edgesAt s way i).map fun r => r.2.far way)
  nodeCount_eq : ∀ s, A.nodeCount s = (A.nodeIndices s).length
  edgeCount_eq : ∀ s, A.edgeCount s = (A.edgeRefs s).length

/-! ## Slots -/

/-- Values in numbered slots. A slot that was freed is filled again before a new one is added. -/
structure Slots (α : Type) where
  cells : List (Option α)
  /-- The free slots, the one freed last first. -/
  free : List Nat
  vacant : ∀ i ∈ free, cells[i]? = some none
  distinct : free.Nodup

namespace Slots

variable {α : Type} {s : Slots α} {i j : Nat} {a : α}

def empty : Slots α := ⟨[], [], by simp, .nil⟩

def get? (s : Slots α) (i : Nat) : Option α := s.cells[i]?.join

def insert (s : Slots α) (a : α) : Nat × Slots α :=
  match h : s.free with
  | [] => (s.cells.length, ⟨s.cells ++ [some a], [], by simp, .nil⟩)
  | i :: free =>
    (i, { cells := s.cells.set i (some a)
          free
          vacant := fun j hj => by
            have hne : i ≠ j := by
              rintro rfl
              exact (List.nodup_cons.1 (h ▸ s.distinct)).1 hj
            rw [List.getElem?_set_ne hne]
            exact s.vacant j (h ▸ List.mem_cons_of_mem i hj)
          distinct := (List.nodup_cons.1 (h ▸ s.distinct)).2 })

def erase (s : Slots α) (i : Nat) : Slots α :=
  if h : (s.get? i).isSome then
    { cells := s.cells.set i none
      free := i :: s.free
      vacant := fun j hj => by
        have hlt : i < s.cells.length := by
          by_contra hge
          simp [get?, List.getElem?_eq_none (Nat.le_of_not_lt hge)] at h
        by_cases hne : i = j
        · subst hne
          simp [hlt]
        · rw [List.getElem?_set_ne hne]
          rcases List.mem_cons.1 hj with rfl | hj
          · exact absurd rfl hne
          · exact s.vacant j hj
      distinct := List.nodup_cons.2 ⟨fun hi => by simp [get?, s.vacant i hi] at h, s.distinct⟩ }
  else s

def modify (s : Slots α) (i : Nat) (f : α → α) : Slots α where
  cells := s.cells.modify i (Option.map f)
  free := s.free
  vacant j hj := by
    rw [List.getElem?_modify, s.vacant j hj]
    split <;> rfl
  distinct := s.distinct

/-- The slots in use. -/
def indices (s : Slots α) : List Nat := (List.range s.cells.length).filter fun i => (s.get? i).isSome

/-- The slots in use with their values. -/
def entries (s : Slots α) : List (Nat × α) := s.indices.filterMap fun i => (s.get? i).map (i, ·)

/-- Frees the slots of all values for which `p` holds. -/
def eraseIf (s : Slots α) (p : α → Bool) : Slots α :=
  (s.entries.filter fun r => p r.2).foldl (fun s r => s.erase r.1) s

theorem insert_fresh : s.get? (s.insert a).1 = none := by
  unfold insert get?
  split
  · simp
  · rename_i i free h
    rw [s.vacant i (h ▸ List.mem_cons_self)]
    rfl

theorem get?_insert : (s.insert a).2.get? j = if j = (s.insert a).1 then some a else s.get? j := by
  unfold insert get?
  split
  · by_cases hj : j = s.cells.length
    · simp [hj]
    · rw [if_neg hj]
      rcases Nat.lt_or_gt_of_ne hj with hlt | hgt
      · rw [List.getElem?_append_left hlt]
      · rw [List.getElem?_eq_none (by simp; omega), List.getElem?_eq_none (by omega)]
  · rename_i i free h
    have hi := s.vacant i (h ▸ List.mem_cons_self)
    have hlt : i < s.cells.length := (List.getElem?_eq_some_iff.1 hi).1
    by_cases hj : j = i
    · subst hj
      simp [hlt]
    · rw [if_neg hj, List.getElem?_set_ne (Ne.symm hj)]

theorem get?_erase : (s.erase i).get? j = if j = i then none else s.get? j := by
  unfold erase
  split
  · unfold get?
    by_cases hj : j = i
    · subst hj
      simp only [List.getElem?_set_self', if_true]
      cases s.cells[j]? <;> rfl
    · rw [if_neg hj, List.getElem?_set_ne (Ne.symm hj)]
  · rename_i h
    split
    · rename_i hj
      subst hj
      simpa using h
    · rfl

theorem get?_modify {f : α → α} :
    (s.modify i f).get? j = if j = i then (s.get? i).map f else s.get? j := by
  unfold modify get?
  rw [List.getElem?_modify]
  by_cases hj : j = i
  · subst hj
    simp only [if_true]
    cases s.cells[j]? with
    | none => rfl
    | some c => cases c <;> rfl
  · simp [hj, Ne.symm hj]

theorem mem_indices : i ∈ s.indices ↔ (s.get? i).isSome := by
  unfold indices
  rw [List.mem_filter, List.mem_range, and_iff_right_iff_imp]
  intro h
  by_contra hge
  simp [get?, List.getElem?_eq_none (Nat.le_of_not_lt hge)] at h

theorem nodup_indices : s.indices.Nodup := List.nodup_range.filter _

theorem mem_entries : (i, a) ∈ s.entries ↔ s.get? i = some a := by
  unfold entries
  simp only [List.mem_filterMap, Option.map_eq_some_iff, Prod.mk.injEq]
  constructor
  · rintro ⟨k, -, b, hb, rfl, rfl⟩
    exact hb
  · intro h
    exact ⟨i, mem_indices.2 (by rw [h]; rfl), a, h, rfl, rfl⟩

theorem nodup_entries : s.entries.Nodup := by
  refine List.Nodup.filterMap ?_ nodup_indices
  intro i j r hi hj
  obtain ⟨a, -, rfl⟩ := Option.map_eq_some_iff.1 hi
  obtain ⟨b, -, h⟩ := Option.map_eq_some_iff.1 hj
  exact (Prod.mk.inj h).1.symm

theorem get?_eraseAll {l : List (Nat × α)} :
    (l.foldl (fun s r => s.erase r.1) s).get? j = if j ∈ l.map Prod.fst then none else s.get? j := by
  induction l generalizing s with
  | nil => simp
  | cons r rest ih =>
    rw [List.foldl_cons, ih, get?_erase, List.map_cons]
    by_cases hj : j = r.1
    · simp [hj]
    · simp only [List.mem_cons, hj, if_false, false_or]

theorem get?_eraseIf {p : α → Bool} : (s.eraseIf p).get? j = (s.get? j).filter fun a => !p a := by
  have hmem : j ∈ (s.entries.filter fun r => p r.2).map Prod.fst ↔ (s.get? j).any p = true := by
    rw [List.mem_map]
    constructor
    · rintro ⟨⟨i, a⟩, hr, rfl⟩
      obtain ⟨hentry, hp⟩ := List.mem_filter.1 hr
      rw [mem_entries.1 hentry]
      exact hp
    · intro h
      obtain ⟨a, ha, hp⟩ := (Option.any_eq_true _ _).1 h
      exact ⟨(j, a), List.mem_filter.2 ⟨mem_entries.2 ha, hp⟩, rfl⟩
  unfold eraseIf
  rw [get?_eraseAll]
  cases hj : s.get? j with
  | none => simp
  | some a =>
    rw [hj] at hmem
    by_cases hp : p a = true
    · rw [if_pos (hmem.2 hp)]
      simp [Option.filter, hp]
    · rw [if_neg fun h => hp (hmem.1 h)]
      simp [Option.filter, hp]

end Slots

/-! ## An arena of slots -/

/-- Nodes and edges in slots of their own. -/
def slotArena : Arena where
  State := Slots NodeId × Slots ArenaEdge
  empty := (.empty, .empty)
  node? s := s.1.get?
  edge? s := s.2.get?
  addNode s id := ((s.1.insert id).1, (s.1.insert id).2, s.2)
  removeNode s i := (s.1.erase i, s.2.eraseIf (·.touches i))
  addEdge s a := ((s.2.insert a).1, s.1, (s.2.insert a).2)
  removeEdge s e := ((s.2.get? e).map (·.kind), s.1, s.2.erase e)
  setKind s e kind := (s.1, s.2.modify e ({ · with kind }))
  findEdge s i j := (s.2.entries.find? fun r => r.2.source == i && r.2.target == j).map (·.1)
  nodeIndices s := s.1.indices
  edgeRefs s := s.2.entries
  edgesAt s way i := s.2.entries.filter fun r => r.2.near way == i
  neighboursAt s way i := (s.2.entries.filter fun r => r.2.near way == i).map fun r => r.2.far way
  nodeCount s := s.1.indices.length
  edgeCount s := s.2.entries.length

theorem slotArena_lawful : slotArena.Lawful where
  node?_empty _ := rfl
  edge?_empty _ := rfl
  addNode_fresh _ _ := Slots.insert_fresh
  node?_addNode _ _ _ := Slots.get?_insert
  edge?_addNode _ _ _ := rfl
  node?_removeNode _ _ _ := Slots.get?_erase
  edge?_removeNode _ _ _ := Slots.get?_eraseIf
  addEdge_fresh _ _ _ _ := Slots.insert_fresh
  node?_addEdge _ _ _ _ _ := rfl
  edge?_addEdge _ _ _ _ _ := Slots.get?_insert
  removeEdge_fst _ _ := rfl
  node?_removeEdge _ _ _ := rfl
  edge?_removeEdge _ _ _ := Slots.get?_erase
  node?_setKind _ _ _ _ := rfl
  edge?_setKind _ _ _ _ := Slots.get?_modify
  findEdge_some s i j e h := by
    obtain ⟨⟨e', a⟩, hfind, rfl⟩ := Option.map_eq_some_iff.1 h
    have hends := List.find?_some hfind
    simp only [Bool.and_eq_true, beq_iff_eq] at hends
    obtain ⟨rfl, rfl⟩ := hends
    exact ⟨a.kind, Slots.mem_entries.1 (List.mem_of_find?_eq_some hfind)⟩
  findEdge_none s i j h e kind he := by
    have hfind := List.find?_eq_none.1 (Option.map_eq_none_iff.1 h) _ (Slots.mem_entries.2 he)
    simp at hfind
  nodup_nodeIndices _ := Slots.nodup_indices
  mem_nodeIndices _ _ := Slots.mem_indices
  nodup_edgeRefs _ := Slots.nodup_entries
  mem_edgeRefs _ _ _ := Slots.mem_entries
  nodup_edgesAt _ _ _ := Slots.nodup_entries.filter _
  mem_edgesAt s way i e a := by
    show (e, a) ∈ s.2.entries.filter (fun r => r.2.near way == i) ↔ _
    rw [List.mem_filter, Slots.mem_entries, beq_iff_eq]
    rfl
  neighboursAt_perm _ _ _ := .refl _
  nodeCount_eq _ := rfl
  edgeCount_eq _ := rfl

end Lineage
