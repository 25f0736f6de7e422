import Lineage.Proofs.Graph.Arena
import Lineage.Proofs.Graph.Digraph
import Mathlib.Data.Prod.Lex
import Std.Data.HashMap.Lemmas

/-!
# Graphs in an arena

A graph can be kept in an arena, with a table that finds the index of an identity. Half of the queries
read the table and half the arena, so the two have to agree at all times: `Indexed.Sound` says that each
names exactly the nodes of the other, that no edge is left without its ends, and that no two edges are
parallel. `Indexed.Represents` adds which digraph that is. Every edit keeps it
(`Indexed.Represents.apply`), whatever indices the arena gives out, and every query then shows that
digraph (`Indexed.Represents.shows_observe`). So a graph in an arena cannot be told from a digraph, nor
from the graphs of this library (`indexed_behaves_as_digraph`).
-/

namespace Lineage

open Lineage.Graph (Direction)

/-- A graph in an arena (`DependencyGraph`). -/
structure Indexed (A : Arena) where
  arena : A.State
  /-- The index of each node. -/
  table : Std.HashMap NodeId Nat

namespace Indexed

variable {A : Arena}

/-! ## Edits -/

def empty : Indexed A := ⟨A.empty, ∅⟩

/-- Refuses an identity that is not a node (`index`). -/
def index (x : Indexed A) (id : NodeId) : Except GraphError Nat :=
  match x.table[id]? with
  | some i => .ok i
  | none => .error (.unknownNode id)

/-- Adds a node that is new. -/
def enter (x : Indexed A) (id : NodeId) : Nat × Indexed A :=
  let (i, arena) := A.addNode x.arena id
  (i, ⟨arena, x.table.insert id i⟩)

/-- The index of a node, which is added if it is new (`ensure_node`). -/
def ensureNode (x : Indexed A) (id : NodeId) : Nat × Indexed A :=
  match x.table[id]? with
  | some i => (i, x)
  | none => x.enter id

/-- Gives the edge from one node to another this kind, or adds it (`upsert_edge`). -/
def upsertEdge (x : Indexed A) (i j : Nat) (kind : EdgeKind) : Indexed A :=
  match A.findEdge x.arena i j with
  | some e => { x with arena := A.setKind x.arena e kind }
  | none => { x with arena := (A.addEdge x.arena ⟨i, j, kind⟩).2 }

def addNode (x : Indexed A) (id : NodeId) : Bool × Indexed A :=
  if x.table.contains id then (false, x) else (true, (x.enter id).2)

def removeNode (x : Indexed A) (id : NodeId) : Bool × Indexed A :=
  match x.table[id]? with
  | some i => (true, ⟨A.removeNode x.arena i, x.table.erase id⟩)
  | none => (false, x)

def addEdge (x : Indexed A) (u v : NodeId) (kind : EdgeKind) : Except GraphError Unit × Indexed A :=
  match x.index u with
  | .error e => (.error e, x)
  | .ok i =>
    match x.index v with
    | .error e => (.error e, x)
    | .ok j => (.ok (), x.upsertEdge i j kind)

def removeEdge (x : Indexed A) (u v : NodeId) : Except GraphError Bool × Indexed A :=
  match x.index u with
  | .error e => (.error e, x)
  | .ok i =>
    match x.index v with
    | .error e => (.error e, x)
    | .ok j =>
      match A.findEdge x.arena i j with
      | some e =>
        let (kind, arena) := A.removeEdge x.arena e
        (.ok kind.isSome, { x with arena })
      | none => (.ok false, x)

/-- Adds a dependency, and its ends if they are new. -/
def addDependency (x : Indexed A) (p : NodeId × NodeId) : Indexed A :=
  let (i, x) := x.ensureNode p.1
  let (j, x) := x.ensureNode p.2
  x.upsertEdge i j .dependency

def ofEdges (pairs : List (NodeId × NodeId)) : Indexed A := pairs.foldl addDependency empty

def apply (x : Indexed A) : Edit → Outcome × Indexed A
  | .addNode id =>
    let (new, x) := x.addNode id
    (.flag new, x)
  | .removeNode id =>
    let (found, x) := x.removeNode id
    (.flag found, x)
  | .addEdge u v kind =>
    match x.addEdge u v kind with
    | (.ok (), x) => (.done, x)
    | (.error e, x) => (.refused e, x)
  | .removeEdge u v =>
    match x.removeEdge u v with
    | (.ok found, x) => (.flag found, x)
    | (.error e, x) => (.refused e, x)
  | .ofEdges pairs => (.done, ofEdges pairs)

/-! ## Queries -/

/-- The identity at an index that is in use (`id_of`). -/
def name (x : Indexed A) (i : Nat) : NodeId := (A.node? x.arena i).getD ""

def contains (x : Indexed A) (id : NodeId) : Bool := x.table.contains id

def kind? (x : Indexed A) (u v : NodeId) : Option EdgeKind := do
  let i ← x.table[u]?
  let j ← x.table[v]?
  let e ← A.findEdge x.arena i j
  (A.edge? x.arena e).map (·.kind)

def nodes (x : Indexed A) : List NodeId := x.table.keys.mergeSort (· ≤ ·)

/-- Edges are ordered by source, then by target, then by kind. -/
def edgeKey (a : NodeId × NodeId × EdgeKind) : NodeId ×ₗ NodeId ×ₗ Nat :=
  toLex (a.1, toLex (a.2.1, a.2.2.ctorIdx))

/-- An edge with the identities of its ends. -/
def named (x : Indexed A) (a : ArenaEdge) : NodeId × NodeId × EdgeKind :=
  (x.name a.source, x.name a.target, a.kind)

def edges (x : Indexed A) : List (NodeId × NodeId × EdgeKind) :=
  ((A.edgeRefs x.arena).map fun r => x.named r.2).mergeSort fun a b => edgeKey a ≤ edgeKey b

/-- The neighbours of the node at an index, in identity order (`sorted_neighbors`). -/
def neighbours (x : Indexed A) (way : Direction) (i : Nat) : List NodeId :=
  ((A.neighboursAt x.arena way i).mergeSort fun j k => x.name j ≤ x.name k).map x.name

def observe (x : Indexed A) : Observation where
  contains := x.contains
  kind? := x.kind?
  nodes := x.nodes
  edges := x.edges
  successors u := x.index u |>.map (x.neighbours .forward)
  predecessors v := x.index v |>.map (x.neighbours .backward)
  inDegree v := x.index v |>.map fun i => (A.edgesAt x.arena .backward i).length
  outDegree u := x.index u |>.map fun i => (A.edgesAt x.arena .forward i).length
  nodeCount := A.nodeCount x.arena
  edgeCount := A.edgeCount x.arena

/-! ## The invariant -/

/-- Table and arena name the same nodes, every edge has both its ends, and no two edges are parallel. -/
structure Sound (x : Indexed A) : Prop where
  table : ∀ (id : NodeId) (i : Nat), x.table[id]? = some i ↔ A.node? x.arena i = some id
  ends : ∀ e a, A.edge? x.arena e = some a →
    (∃ u : NodeId, x.table[u]? = some a.source) ∧ ∃ v : NodeId, x.table[v]? = some a.target
  single : ∀ e e' a a', A.edge? x.arena e = some a → A.edge? x.arena e' = some a' →
    a.source = a'.source → a.target = a'.target → e = e'

/-- A sound graph that holds the nodes and edges of a digraph. -/
structure Represents (x : Indexed A) (d : Digraph) : Prop extends Sound x where
  ids : ∀ id, id ∈ d.ids ↔ ∃ i : Nat, x.table[id]? = some i
  kinds : ∀ u v kind, d.kind? u v = some kind ↔
    ∃ i j e : Nat, x.table[u]? = some i ∧ x.table[v]? = some j ∧ A.edge? x.arena e = some ⟨i, j, kind⟩

variable {x : Indexed A} {d : Digraph} {u v id : NodeId} {i j : Nat} {kind : EdgeKind}

theorem Sound.table_inj (h : Sound x) (hu : x.table[u]? = some i) (hv : x.table[v]? = some i) : u = v := by
  rw [h.table] at hu hv
  exact Option.some.inj (hu.symm.trans hv)

theorem Sound.isSome_node? (h : Sound x) (hu : x.table[u]? = some i) : (A.node? x.arena i).isSome := by
  rw [(h.table u i).1 hu]
  rfl

theorem Represents.mem_ids (h : Represents x d) (hu : x.table[u]? = some i) : u ∈ d.ids :=
  (h.ids u).2 ⟨i, hu⟩

theorem Represents.not_mem_ids (h : Represents x d) (hu : x.table[u]? = none) : u ∉ d.ids := by
  intro hmem
  obtain ⟨i, hi⟩ := (h.ids u).1 hmem
  rw [hu] at hi
  cases hi

theorem Represents.empty (hA : A.Lawful) : Represents (empty : Indexed A) .empty where
  table id i := by simp [Indexed.empty, hA.node?_empty]
  ends e a h := by simp [Indexed.empty, hA.edge?_empty] at h
  single e e' a a' h := by simp [Indexed.empty, hA.edge?_empty] at h
  ids id := by simp [Indexed.empty, Digraph.empty]
  kinds u v kind := by simp [Indexed.empty, Digraph.empty]

/-! ### Nodes -/

theorem table_enter : (x.enter id).2.table[u]? = if id = u then some (x.enter id).1 else x.table[u]? := by
  simp [enter, Std.HashMap.getElem?_insert]

theorem table_enter_of_known (hid : x.table[id]? = none) (hu : x.table[u]? = some i) :
    (x.enter id).2.table[u]? = some i := by
  rw [table_enter, if_neg, hu]
  rintro rfl
  rw [hid] at hu
  cases hu

/-- The table has no use for the new index yet. -/
theorem Sound.fresh_ne (hA : A.Lawful) (h : Sound x) (hu : x.table[u]? = some i) :
    (x.enter id).1 ≠ i := by
  rintro rfl
  have hnode : A.node? x.arena (x.enter id).1 = none := hA.addNode_fresh x.arena id
  rw [(h.table u _).1 hu] at hnode
  cases hnode

theorem Sound.enter (hA : A.Lawful) (h : Sound x) (hid : x.table[id]? = none) :
    Sound (x.enter id).2 := by
  have hedge : ∀ e, A.edge? (x.enter id).2.arena e = A.edge? x.arena e := hA.edge?_addNode x.arena id
  refine ⟨fun u i => ?_, fun e a he => ?_, fun e e' a a' he he' => ?_⟩
  · have hnode : A.node? (x.enter id).2.arena i =
        if i = (x.enter id).1 then some id else A.node? x.arena i := hA.node?_addNode x.arena id i
    rw [table_enter, hnode]
    by_cases hu : id = u
    · subst hu
      by_cases hi : i = (x.enter id).1
      · simp [hi]
      · simp only [if_true, hi, if_false, ← h.table, hid, Option.some.injEq, reduceCtorEq, iff_false]
        exact Ne.symm hi
    · by_cases hi : i = (x.enter id).1
      · simp only [hu, if_false, hi, if_true, Option.some.injEq, iff_false]
        exact fun hfresh => h.fresh_ne hA hfresh rfl
      · simp [hu, hi, h.table]
  · rw [hedge] at he
    obtain ⟨⟨u, hu⟩, v, hv⟩ := h.ends e a he
    exact ⟨⟨u, table_enter_of_known hid hu⟩, v, table_enter_of_known hid hv⟩
  · rw [hedge] at he he'
    exact h.single e e' a a' he he'

/-- An index that is not the new one belongs to the node that had it. -/
theorem table_enter_iff (hid : x.table[id]? = none) (hi : (x.enter id).1 ≠ i) :
    (x.enter id).2.table[u]? = some i ↔ x.table[u]? = some i := by
  refine ⟨fun hu => ?_, table_enter_of_known hid⟩
  rw [table_enter] at hu
  split at hu
  · exact absurd (Option.some.inj hu) hi
  · exact hu

theorem Represents.enter (hA : A.Lawful) (h : Represents x d) (hid : x.table[id]? = none) :
    Represents (x.enter id).2 (d.insert id) := by
  refine ⟨h.toSound.enter hA hid, fun u => ?_, fun u v kind => ?_⟩
  · rw [table_enter, Digraph.insert, Finset.mem_insert, h.ids]
    by_cases hu : id = u
    · simp [hu]
    · simp [hu, Ne.symm hu]
  · show d.kind? u v = some kind ↔ _
    rw [h.kinds]
    refine exists_congr fun i => exists_congr fun j => exists_congr fun e => ?_
    have hedge : A.edge? (x.enter id).2.arena e = A.edge? x.arena e := hA.edge?_addNode x.arena id e
    rw [hedge, ← and_assoc, ← and_assoc]
    -- no edge ends at the new node yet
    refine and_congr_left fun he => ?_
    obtain ⟨⟨_, hs⟩, _, ht⟩ := h.ends e _ he
    rw [table_enter_iff hid (h.fresh_ne hA hs), table_enter_iff hid (h.fresh_ne hA ht)]

theorem Represents.ensureNode (hA : A.Lawful) (h : Represents x d) (id : NodeId) :
    Represents (x.ensureNode id).2 (d.insert id) ∧
      (x.ensureNode id).2.table[id]? = some (x.ensureNode id).1 ∧
      ∀ (u : NodeId) (i : Nat), x.table[u]? = some i → (x.ensureNode id).2.table[u]? = some i := by
  unfold Indexed.ensureNode
  cases hid : x.table[id]? with
  | some i =>
    refine ⟨?_, hid, fun u j hu => hu⟩
    rw [Digraph.insert_of_mem (h.mem_ids hid)]
    exact h
  | none =>
    exact ⟨h.enter hA hid, by rw [table_enter, if_pos rfl], fun u j => table_enter_of_known hid⟩

theorem table_erase : (x.table.erase id)[u]? = if id = u then none else x.table[u]? := by
  simp [Std.HashMap.getElem?_erase]

theorem edge?_removeNode_iff (hA : A.Lawful) {s : A.State} {e : Nat} {a : ArenaEdge} :
    A.edge? (A.removeNode s i) e = some a ↔ A.edge? s e = some a ∧ a.source ≠ i ∧ a.target ≠ i := by
  rw [hA.edge?_removeNode, Option.filter_eq_some_iff]
  simp [ArenaEdge.touches]

theorem Sound.ne_iff (h : Sound x) (hu : x.table[u]? = some i) (hv : x.table[v]? = some j) :
    j ≠ i ↔ u ≠ v := by
  refine not_congr ⟨?_, ?_⟩
  · rintro rfl
    exact h.table_inj hu hv
  · rintro rfl
    exact Option.some.inj (hv.symm.trans hu)

theorem Sound.removeNode (hA : A.Lawful) (h : Sound x) (hid : x.table[id]? = some i) :
    Sound ⟨A.removeNode x.arena i, x.table.erase id⟩ := by
  refine ⟨fun u j => ?_, fun e a he => ?_, fun e e' a a' he he' => ?_⟩
  · rw [table_erase, hA.node?_removeNode]
    by_cases hu : id = u
    · subst hu
      rw [if_pos rfl]
      split
      · simp
      · rename_i hj
        rw [← h.table, hid]
        simpa using Ne.symm hj
    · rw [if_neg hu]
      split
      · rename_i hj
        subst hj
        refine iff_of_false (fun hu' => hu (h.table_inj hid hu')) ?_
        simp
      · exact h.table u j
  · obtain ⟨he, hs, ht⟩ := (edge?_removeNode_iff hA).1 he
    obtain ⟨⟨u, hu⟩, v, hv⟩ := h.ends e a he
    refine ⟨⟨u, ?_⟩, v, ?_⟩
    · rw [table_erase, if_neg ((h.ne_iff hid hu).1 hs), hu]
    · rw [table_erase, if_neg ((h.ne_iff hid hv).1 ht), hv]
  · exact h.single e e' a a' ((edge?_removeNode_iff hA).1 he).1 ((edge?_removeNode_iff hA).1 he').1

theorem Represents.removeNode (hA : A.Lawful) (h : Represents x d) (hid : x.table[id]? = some i) :
    Represents ⟨A.removeNode x.arena i, x.table.erase id⟩ (d.erase id) := by
  refine ⟨h.toSound.removeNode hA hid, fun u => ?_, fun u v kind => ?_⟩
  · rw [table_erase, Digraph.erase, Finset.mem_erase, h.ids]
    by_cases hu : id = u
    · simp [hu]
    · simp [hu, Ne.symm hu]
  · show (if id = u ∨ id = v then none else d.kind? u v) = some kind ↔ _
    simp only [table_erase, edge?_removeNode_iff hA]
    by_cases hout : id = u ∨ id = v
    · rw [if_pos hout]
      rcases hout with rfl | rfl <;> simp
    · rw [if_neg hout, h.kinds]
      obtain ⟨hu', hv'⟩ := not_or.1 hout
      simp only [if_neg hu', if_neg hv']
      refine exists_congr fun j => exists_congr fun k => exists_congr fun e => ?_
      refine and_congr_right fun hu => and_congr_right fun hv => ?_
      rw [h.ne_iff hid hu, h.ne_iff hid hv]
      exact ⟨fun he => ⟨he, hu', hv'⟩, And.left⟩

/-! ### Edges -/

/-- One edge between the two nodes has the kind afterwards, and it takes the place of any that was there;
all others are as before. -/
theorem upsertEdge_spec (hA : A.Lawful) (h : Sound x) (hu : x.table[u]? = some i)
    (hv : x.table[v]? = some j) (kind : EdgeKind) :
    ∃ e, (∀ e', A.edge? (x.upsertEdge i j kind).arena e' =
        if e' = e then some ⟨i, j, kind⟩ else A.edge? x.arena e') ∧
      (∀ e' a, A.edge? x.arena e' = some a → (e' = e ↔ a.source = i ∧ a.target = j)) ∧
      (∀ k, A.node? (x.upsertEdge i j kind).arena k = A.node? x.arena k) ∧
      (x.upsertEdge i j kind).table = x.table := by
  unfold Indexed.upsertEdge
  cases hfind : A.findEdge x.arena i j with
  | some e =>
    obtain ⟨k, he⟩ := hA.findEdge_some _ _ _ _ hfind
    refine ⟨e, fun e' => ?_, fun e' a he' => ⟨?_, ?_⟩, fun k => hA.node?_setKind _ _ _ _, rfl⟩
    · rw [hA.edge?_setKind, he]
      rfl
    · rintro rfl
      rw [he] at he'
      cases he'
      exact ⟨rfl, rfl⟩
    · rintro ⟨hs, ht⟩
      exact h.single e' e _ _ he' he hs ht
  | none =>
    have hs := h.isSome_node? hu
    have ht := h.isSome_node? hv
    refine ⟨(A.addEdge x.arena ⟨i, j, kind⟩).1, fun e' => ?_, fun e' a he' => ⟨?_, ?_⟩, fun k => ?_, rfl⟩
    · exact hA.edge?_addEdge _ _ _ hs ht
    · rintro rfl
      rw [hA.addEdge_fresh _ _ hs ht] at he'
      cases he'
    · rintro ⟨rfl, rfl⟩
      exact absurd he' (hA.findEdge_none _ _ _ hfind e' a.kind)
    · exact hA.node?_addEdge _ _ _ hs ht

theorem Sound.upsertEdge (hA : A.Lawful) (h : Sound x) (hu : x.table[u]? = some i)
    (hv : x.table[v]? = some j) : Sound (x.upsertEdge i j kind) := by
  obtain ⟨e₀, hedge, hplace, hnode, htable⟩ := upsertEdge_spec hA h hu hv kind
  refine ⟨fun w k => ?_, fun e a he => ?_, fun e e' a a' he he' hs ht => ?_⟩
  · rw [htable, hnode, h.table]
  · rw [hedge] at he
    rw [htable]
    split at he
    · cases he
      exact ⟨⟨u, hu⟩, v, hv⟩
    · exact h.ends e a he
  · rw [hedge] at he he'
    split at he
    · rename_i heq
      cases he
      split at he'
      · rename_i heq'
        rw [heq, heq']
      · rw [heq, (hplace e' a' he').2 ⟨hs.symm, ht.symm⟩]
    · split at he'
      · rename_i heq'
        cases he'
        rw [heq', (hplace e a he).2 ⟨hs, ht⟩]
      · exact h.single e e' a a' he he' hs ht

theorem Represents.upsertEdge (hA : A.Lawful) (h : Represents x d) (hu : x.table[u]? = some i)
    (hv : x.table[v]? = some j) : Represents (x.upsertEdge i j kind) (d.link u v kind) := by
  obtain ⟨e₀, hedge, hplace, -, htable⟩ := upsertEdge_spec hA h.toSound hu hv kind
  refine ⟨h.toSound.upsertEdge hA hu hv, fun w => ?_, fun a b k => ?_⟩
  · rw [htable]
    exact h.ids w
  · show (if (u = a ∧ v = b) ∧ u ∈ d.ids ∧ v ∈ d.ids then some kind else d.kind? a b) = some k ↔ _
    simp only [htable, hedge]
    by_cases hab : u = a ∧ v = b
    · obtain ⟨rfl, rfl⟩ := hab
      rw [if_pos ⟨⟨rfl, rfl⟩, h.mem_ids hu, h.mem_ids hv⟩]
      constructor
      · intro heq
        exact ⟨i, j, e₀, hu, hv, by rw [if_pos rfl, Option.some.inj heq]⟩
      · rintro ⟨i', j', e, hu', hv', he⟩
        obtain rfl : i = i' := Option.some.inj (hu.symm.trans hu')
        obtain rfl : j = j' := Option.some.inj (hv.symm.trans hv')
        split at he
        · simpa using he
        · rename_i hne
          exact absurd ((hplace e _ he).2 ⟨rfl, rfl⟩) hne
    · rw [if_neg fun hp => hab hp.1, h.kinds]
      refine exists_congr fun i' => exists_congr fun j' => exists_congr fun e => ?_
      refine and_congr_right fun ha => and_congr_right fun hb => ?_
      -- the edge between `a` and `b` is another one than that between `u` and `v`
      have hother : ¬ (i' = i ∧ j' = j) := by
        rintro ⟨rfl, rfl⟩
        exact hab ⟨h.table_inj hu ha, h.table_inj hv hb⟩
      constructor
      · intro he
        rw [if_neg fun heq => hother ((hplace e _ he).1 heq), he]
      · intro he
        split at he
        · cases he
          exact absurd ⟨rfl, rfl⟩ hother
        · exact he

/-- The edge that a search finds is the one that the digraph has. -/
theorem Represents.findEdge (hA : A.Lawful) (h : Represents x d) (hu : x.table[u]? = some i)
    (hv : x.table[v]? = some j) :
    (A.findEdge x.arena i j = none ∧ d.kind? u v = none) ∨
      ∃ e k, A.findEdge x.arena i j = some e ∧ A.edge? x.arena e = some ⟨i, j, k⟩ ∧
        d.kind? u v = some k := by
  cases hfind : A.findEdge x.arena i j with
  | some e =>
    obtain ⟨k, he⟩ := hA.findEdge_some _ _ _ _ hfind
    exact .inr ⟨e, k, rfl, he, (h.kinds u v k).2 ⟨i, j, e, hu, hv, he⟩⟩
  | none =>
    refine .inl ⟨rfl, ?_⟩
    cases hk : d.kind? u v with
    | none => rfl
    | some k =>
      obtain ⟨i', j', e, hu', hv', he⟩ := (h.kinds u v k).1 hk
      obtain rfl : i = i' := Option.some.inj (hu.symm.trans hu')
      obtain rfl : j = j' := Option.some.inj (hv.symm.trans hv')
      exact absurd he (hA.findEdge_none _ _ _ hfind e k)

theorem Represents.removeEdge (hA : A.Lawful) (h : Represents x d) (hu : x.table[u]? = some i)
    (hv : x.table[v]? = some j) {e : Nat} (he : A.edge? x.arena e = some ⟨i, j, kind⟩) :
    Represents { x with arena := (A.removeEdge x.arena e).2 } (d.unlink u v) := by
  have hedge : ∀ e' a, A.edge? (A.removeEdge x.arena e).2 e' = some a ↔
      e' ≠ e ∧ A.edge? x.arena e' = some a := by
    intro e' a
    rw [hA.edge?_removeEdge]
    by_cases heq : e' = e
    · simp [heq]
    · simp [heq]
  refine ⟨⟨fun w k => ?_, fun e' a he' => ?_, fun e' e'' a a' he' he'' => ?_⟩, h.ids, fun a b k => ?_⟩
  · rw [hA.node?_removeEdge]
    exact h.table w k
  · exact h.ends e' a ((hedge e' a).1 he').2
  · exact h.single e' e'' a a' ((hedge e' a).1 he').2 ((hedge e'' a').1 he'').2
  · show (if u = a ∧ v = b then none else d.kind? a b) = some k ↔ _
    simp only [hedge]
    constructor
    · intro hk
      split at hk
      · cases hk
      · rename_i hab
        obtain ⟨i', j', e', ha, hb, he'⟩ := (h.kinds a b k).1 hk
        refine ⟨i', j', e', ha, hb, ?_, he'⟩
        rintro rfl
        rw [he] at he'
        cases he'
        exact hab ⟨h.table_inj hu ha, h.table_inj hv hb⟩
    · rintro ⟨i', j', e', ha, hb, hne, he'⟩
      rw [if_neg]
      · exact (h.kinds a b k).2 ⟨i', j', e', ha, hb, he'⟩
      · rintro ⟨rfl, rfl⟩
        obtain rfl : i = i' := Option.some.inj (hu.symm.trans ha)
        obtain rfl : j = j' := Option.some.inj (hv.symm.trans hb)
        exact hne (h.single e' e _ _ he' he rfl rfl)

theorem Represents.addDependency (hA : A.Lawful) (h : Represents x d) (p : NodeId × NodeId) :
    Represents (x.addDependency p) (((d.insert p.1).insert p.2).link p.1 p.2 .dependency) := by
  obtain ⟨hfirst, hu, -⟩ := h.ensureNode hA p.1
  obtain ⟨hboth, hv, hkeep⟩ := hfirst.ensureNode hA p.2
  exact hboth.upsertEdge hA (hkeep _ _ hu) hv

theorem Represents.ofEdges (hA : A.Lawful) (pairs : List (NodeId × NodeId)) :
    Represents (ofEdges pairs : Indexed A) (.ofEdges pairs) := by
  unfold Indexed.ofEdges Digraph.ofEdges
  have h := Represents.empty hA
  generalize (Indexed.empty : Indexed A) = x at h ⊢
  generalize Digraph.empty = d at h ⊢
  induction pairs generalizing x d with
  | nil => exact h
  | cons p rest ih => exact ih _ _ (h.addDependency hA p)

/-! ### All edits -/

theorem index_of_known (hu : x.table[u]? = some i) : x.index u = .ok i := by
  unfold index
  rw [hu]

theorem index_of_unknown (hu : x.table[u]? = none) : x.index u = .error (.unknownNode u) := by
  unfold index
  rw [hu]

theorem Represents.contains_iff (h : Represents x d) : x.contains u = true ↔ u ∈ d.ids := by
  unfold contains
  rw [Std.HashMap.contains_eq_isSome_getElem?, Option.isSome_iff_exists, h.ids]

theorem Represents.addNode (hA : A.Lawful) (h : Represents x d) (id : NodeId) :
    (x.addNode id).1 = decide (id ∉ d.ids) ∧ Represents (x.addNode id).2 (d.insert id) := by
  have hcontains := h.contains_iff (u := id)
  unfold contains at hcontains
  unfold Indexed.addNode
  split
  · rename_i hold
    have hmem := hcontains.1 hold
    exact ⟨by simp [hmem], by rwa [Digraph.insert_of_mem hmem]⟩
  · rename_i hnew
    have hid : x.table[id]? = none := by
      rw [← Option.not_isSome_iff_eq_none, ← Std.HashMap.contains_eq_isSome_getElem?]
      exact hnew
    exact ⟨by simp [h.not_mem_ids hid], h.enter hA hid⟩

/-- Each edit does to a graph in an arena, and answers, what it does to the digraph. -/
theorem Represents.apply (hA : A.Lawful) (h : Represents x d) (edit : Edit) :
    (x.apply edit).1 = (d.apply edit).1 ∧ Represents (x.apply edit).2 (d.apply edit).2 := by
  cases edit with
  | addNode id =>
    obtain ⟨hnew, hnext⟩ := h.addNode hA id
    exact ⟨by simp only [Indexed.apply, Digraph.apply, hnew], hnext⟩
  | removeNode id =>
    simp only [Indexed.apply, Digraph.apply, Indexed.removeNode]
    cases hid : x.table[id]? with
    | some i => exact ⟨by simp [h.mem_ids hid], h.removeNode hA hid⟩
    | none =>
      have hmem := h.not_mem_ids hid
      exact ⟨by simp [hmem], by rwa [Digraph.erase_of_not_mem hmem]⟩
  | addEdge u v kind =>
    simp only [Indexed.apply, Digraph.apply, Indexed.addEdge]
    cases hu : x.table[u]? with
    | none => simp [index_of_unknown hu, h.not_mem_ids hu, h]
    | some i =>
      cases hv : x.table[v]? with
      | none => simp [index_of_known hu, index_of_unknown hv, h.mem_ids hu, h.not_mem_ids hv, h]
      | some j =>
        simp only [index_of_known hu, index_of_known hv, h.mem_ids hu, h.mem_ids hv, not_true, if_false]
        exact ⟨trivial, h.upsertEdge hA hu hv⟩
  | removeEdge u v =>
    simp only [Indexed.apply, Digraph.apply, Indexed.removeEdge]
    cases hu : x.table[u]? with
    | none => simp [index_of_unknown hu, h.not_mem_ids hu, h]
    | some i =>
      cases hv : x.table[v]? with
      | none => simp [index_of_known hu, index_of_unknown hv, h.mem_ids hu, h.not_mem_ids hv, h]
      | some j =>
        simp only [index_of_known hu, index_of_known hv, h.mem_ids hu, h.mem_ids hv, not_true, if_false]
        rcases h.findEdge hA hu hv with ⟨hfind, hk⟩ | ⟨e, k, hfind, he, hk⟩
        · simp only [hfind, hk]
          exact ⟨rfl, by rwa [Digraph.unlink_of_none hk]⟩
        · simp only [hfind, hA.removeEdge_fst, he, hk]
          exact ⟨rfl, h.removeEdge hA hu hv he⟩
  | ofEdges pairs => exact ⟨rfl, .ofEdges hA pairs⟩

/-- An edit that is refused changes nothing. -/
theorem apply_of_refused {edit : Edit} {e : GraphError} (h : (x.apply edit).1 = .refused e) :
    (x.apply edit).2 = x := by
  cases edit with
  | addNode id => cases h
  | removeNode id => cases h
  | ofEdges pairs => cases h
  | addEdge u v kind =>
    simp only [Indexed.apply, Indexed.addEdge] at h ⊢
    cases hu : x.index u with
    | error e => rfl
    | ok i =>
      cases hv : x.index v with
      | error e => rfl
      | ok j => simp [hu, hv] at h
  | removeEdge u v =>
    simp only [Indexed.apply, Indexed.removeEdge] at h ⊢
    cases hu : x.index u with
    | error e => rfl
    | ok i =>
      cases hv : x.index v with
      | error e => rfl
      | ok j =>
        cases hfind : A.findEdge x.arena i j with
        | none => simp [hfind]
        | some e => simp [hu, hv, hfind] at h

/-! ## Every query -/

theorem Sound.name_eq (h : Sound x) (hu : x.table[u]? = some i) : x.name i = u := by
  unfold name
  rw [(h.table u i).1 hu]
  rfl

theorem Sound.table_name (h : Sound x) (hi : (A.node? x.arena i).isSome) :
    x.table[x.name i]? = some i := by
  obtain ⟨u, hu⟩ := Option.isSome_iff_exists.1 hi
  rw [← h.table] at hu
  rwa [h.name_eq hu]

/-- The ends of an edge are told apart by their names. -/
theorem Sound.far_inj (h : Sound x) (way : Direction) {e e' : Nat} {a a' : ArenaEdge}
    (he : A.edge? x.arena e = some a) (he' : A.edge? x.arena e' = some a')
    (hnear : a.near way = a'.near way) (hfar : x.name (a.far way) = x.name (a'.far way)) : e = e' := by
  obtain ⟨⟨u, hu⟩, v, hv⟩ := h.ends e a he
  obtain ⟨⟨u', hu'⟩, v', hv'⟩ := h.ends e' a' he'
  cases way with
  | forward =>
    simp only [ArenaEdge.far, h.name_eq hv, h.name_eq hv'] at hfar
    subst hfar
    exact h.single e e' a a' he he' hnear (Option.some.inj (hv.symm.trans hv'))
  | backward =>
    simp only [ArenaEdge.far, h.name_eq hu, h.name_eq hu'] at hfar
    subst hfar
    exact h.single e e' a a' he he' (Option.some.inj (hu.symm.trans hu')) hnear

theorem Represents.listed_nodes (h : Represents x d) : Listed (· < ·) x.nodes (· ∈ d.ids) := by
  refine ⟨Graph.pairwise_lt_mergeSort Std.HashMap.nodup_keys, fun u => ?_⟩
  unfold nodes
  rw [(List.mergeSort_perm _ _).mem_iff, Std.HashMap.mem_keys, Std.HashMap.mem_iff_isSome_getElem?,
    Option.isSome_iff_exists]
  exact (h.ids u).symm

/-- The names of the indices in use are the nodes. -/
theorem Sound.names_perm (hA : A.Lawful) (h : Sound x) :
    ((A.nodeIndices x.arena).map x.name).Perm x.table.keys := by
  have hname : ∀ i ∈ A.nodeIndices x.arena, x.table[x.name i]? = some i := fun i hi =>
    h.table_name ((hA.mem_nodeIndices _ _).1 hi)
  have hnodup : ((A.nodeIndices x.arena).map x.name).Nodup := by
    refine List.Nodup.map_on (fun i hi j hj heq => ?_) (hA.nodup_nodeIndices _)
    have hij := (hname i hi).symm
    rw [heq, hname j hj] at hij
    exact (Option.some.inj hij)
  refine (List.perm_ext_iff_of_nodup hnodup Std.HashMap.nodup_keys).2 fun u => ?_
  rw [List.mem_map, Std.HashMap.mem_keys, Std.HashMap.mem_iff_isSome_getElem?,
    Option.isSome_iff_exists]
  constructor
  · rintro ⟨i, hi, rfl⟩
    exact ⟨i, hname i hi⟩
  · rintro ⟨i, hi⟩
    exact ⟨i, (hA.mem_nodeIndices _ _).2 (h.isSome_node? hi), h.name_eq hi⟩

theorem Represents.length_nodes (hA : A.Lawful) (h : Represents x d) :
    A.nodeCount x.arena = x.nodes.length := by
  rw [hA.nodeCount_eq, nodes, List.length_mergeSort, ← (h.names_perm hA).length_eq, List.length_map]

/-! ### Edges -/

theorem Represents.named_mem_iff (hA : A.Lawful) (h : Represents x d)
    (t : NodeId × NodeId × EdgeKind) :
    t ∈ (A.edgeRefs x.arena).map (fun r => x.named r.2) ↔ d.kind? t.1 t.2.1 = some t.2.2 := by
  rw [List.mem_map, h.kinds]
  constructor
  · rintro ⟨⟨e, a⟩, hr, rfl⟩
    have he := (hA.mem_edgeRefs _ _ _).1 hr
    obtain ⟨⟨u, hu⟩, v, hv⟩ := h.ends e a he
    refine ⟨a.source, a.target, e, ?_, ?_, he⟩
    · rw [← hu, named, h.name_eq hu]
    · rw [← hv, named, h.name_eq hv]
  · obtain ⟨u, v, kind⟩ := t
    rintro ⟨i, j, e, hu, hv, he⟩
    refine ⟨(e, ⟨i, j, kind⟩), (hA.mem_edgeRefs _ _ _).2 he, ?_⟩
    simp only [named, h.name_eq hu, h.name_eq hv]

theorem edgeBefore_of_key_le {a b : NodeId × NodeId × EdgeKind} (hle : edgeKey a ≤ edgeKey b)
    (hne : ¬ (a.1 = b.1 ∧ a.2.1 = b.2.1)) : EdgeBefore a b := by
  simp only [edgeKey, Prod.Lex.toLex_le_toLex] at hle
  rcases hle with hlt | ⟨heq, hlt | ⟨heq', -⟩⟩
  · exact .inl hlt
  · exact .inr ⟨heq, hlt⟩
  · exact absurd ⟨heq, heq'⟩ hne

theorem Represents.listed_edges (hA : A.Lawful) (h : Represents x d) :
    Listed EdgeBefore x.edges fun t => d.kind? t.1 t.2.1 = some t.2.2 := by
  have hperm : x.edges.Perm ((A.edgeRefs x.arena).map fun r => x.named r.2) := List.mergeSort_perm _ _
  refine ⟨?_, fun t => by rw [hperm.mem_iff, h.named_mem_iff hA]⟩
  have hsorted : x.edges.Pairwise fun a b => edgeKey a ≤ edgeKey b := Graph.pairwise_mergeSort_key edgeKey _
  have happart : x.edges.Pairwise fun a b => ¬ (a.1 = b.1 ∧ a.2.1 = b.2.1) := by
    refine (hperm.pairwise_iff fun hab hba => hab ⟨hba.1.symm, hba.2.symm⟩).2 ?_
    rw [List.pairwise_map]
    refine (hA.nodup_edgeRefs x.arena).imp_of_mem ?_
    rintro ⟨e, a⟩ ⟨e', a'⟩ hr hr' hne ⟨hs, ht⟩
    have he := (hA.mem_edgeRefs _ _ _).1 hr
    have he' := (hA.mem_edgeRefs _ _ _).1 hr'
    obtain ⟨⟨u, hu⟩, -⟩ := h.ends e a he
    obtain ⟨⟨u', hu'⟩, -⟩ := h.ends e' a' he'
    have hsource : a.source = a'.source := by
      simp only [named, h.name_eq hu, h.name_eq hu'] at hs
      subst hs
      exact Option.some.inj (hu.symm.trans hu')
    obtain rfl := h.far_inj .forward he he' hsource ht
    rw [he] at he'
    exact hne (by rw [Option.some.inj he'])
  exact hsorted.imp₂ (fun a b hle hne => edgeBefore_of_key_le hle hne) happart

theorem Represents.length_edges (hA : A.Lawful) : A.edgeCount x.arena = x.edges.length := by
  rw [hA.edgeCount_eq, edges, List.length_mergeSort, List.length_map]

theorem Represents.kind?_eq (hA : A.Lawful) (h : Represents x d) : x.kind? u v = d.kind? u v := by
  have hnone : ∀ {a b : NodeId}, d.kind? a b ≠ none →
      (∃ i : Nat, x.table[a]? = some i) ∧ ∃ j : Nat, x.table[b]? = some j := by
    intro a b hk
    obtain ⟨k, hk⟩ := Option.ne_none_iff_exists'.1 hk
    obtain ⟨i, j, -, hi, hj, -⟩ := (h.kinds a b k).1 hk
    exact ⟨⟨i, hi⟩, j, hj⟩
  unfold Indexed.kind?
  cases hu : x.table[u]? with
  | none =>
    by_contra hk
    obtain ⟨⟨i, hi⟩, -⟩ := hnone (Ne.symm hk)
    rw [hu] at hi
    cases hi
  | some i =>
    cases hv : x.table[v]? with
    | none =>
      by_contra hk
      obtain ⟨-, j, hj⟩ := hnone (Ne.symm hk)
      rw [hv] at hj
      cases hj
    | some j =>
      rcases h.findEdge hA hu hv with ⟨hfind, hk⟩ | ⟨e, k, hfind, he, hk⟩
      · simp [hfind, hk]
      · simp [hfind, he, hk]

/-! ### Neighbours -/

/-- The kind of the edge by which a traversal this way gets from `u` to `v`. -/
def stepKind? (d : Digraph) (way : Direction) (u v : NodeId) : Option EdgeKind :=
  match way with
  | .forward => d.kind? u v
  | .backward => d.kind? v u

/-- The edges at a node are those of the digraph. -/
theorem Represents.exists_edgesAt (hA : A.Lawful) (h : Represents x d) {way : Direction}
    (hu : x.table[u]? = some i) :
    (∃ r ∈ A.edgesAt x.arena way i, x.name (r.2.far way) = v ∧ r.2.kind = kind) ↔
      stepKind? d way u v = some kind := by
  constructor
  · rintro ⟨⟨e, a⟩, hr, rfl, rfl⟩
    obtain ⟨he, rfl⟩ := (hA.mem_edgesAt _ _ _ _ _).1 hr
    obtain ⟨⟨s, hs⟩, t, ht⟩ := h.ends e a he
    cases way with
    | forward =>
      simp only [ArenaEdge.near, ArenaEdge.far, h.name_eq ht] at hu ⊢
      exact (h.kinds u t _).2 ⟨_, _, e, hu, ht, he⟩
    | backward =>
      simp only [ArenaEdge.near, ArenaEdge.far, h.name_eq hs] at hu ⊢
      exact (h.kinds s u _).2 ⟨_, _, e, hs, hu, he⟩
  · intro hk
    cases way with
    | forward =>
      obtain ⟨i', j, e, hu', hv, he⟩ := (h.kinds u v kind).1 hk
      obtain rfl : i = i' := Option.some.inj (hu.symm.trans hu')
      exact ⟨_, (hA.mem_edgesAt _ _ _ _ _).2 ⟨he, rfl⟩, h.name_eq hv, rfl⟩
    | backward =>
      obtain ⟨j, i', e, hv, hu', he⟩ := (h.kinds v u kind).1 hk
      obtain rfl : i = i' := Option.some.inj (hu.symm.trans hu')
      exact ⟨_, (hA.mem_edgesAt _ _ _ _ _).2 ⟨he, rfl⟩, h.name_eq hv, rfl⟩

theorem Represents.mem_edgesAt (hA : A.Lawful) (h : Represents x d) {way : Direction}
    (hu : x.table[u]? = some i) :
    (∃ r ∈ A.edgesAt x.arena way i, x.name (r.2.far way) = v) ↔ (stepKind? d way u v).isSome := by
  simp only [Option.isSome_iff_exists, ← h.exists_edgesAt hA hu]
  constructor
  · rintro ⟨r, hr, hv⟩
    exact ⟨_, r, hr, hv, rfl⟩
  · rintro ⟨_, r, hr, hv, _⟩
    exact ⟨r, hr, hv⟩

/-- Indices sorted by their names have their names in order. -/
theorem pairwise_map_name {indices : List Nat}
    (h : ((indices.mergeSort fun j k => x.name j ≤ x.name k).map x.name).Nodup) :
    ((indices.mergeSort fun j k => x.name j ≤ x.name k).map x.name).Pairwise (· < ·) := by
  have hsorted : ((indices.mergeSort fun j k => x.name j ≤ x.name k).map x.name).Pairwise (· ≤ ·) := by
    rw [List.pairwise_map]
    exact Graph.pairwise_mergeSort_key x.name _
  exact hsorted.imp₂ (fun a b hle hne => lt_of_le_of_ne hle hne) h

theorem neighbours_perm (hA : A.Lawful) (x : Indexed A) (way : Direction) (i : Nat) :
    (x.neighbours way i).Perm ((A.edgesAt x.arena way i).map fun r => x.name (r.2.far way)) := by
  have hsort := (List.mergeSort_perm (A.neighboursAt x.arena way i) fun j k => x.name j ≤ x.name k).trans
    (hA.neighboursAt_perm x.arena way i)
  have hmap := hsort.map x.name
  rwa [List.map_map] at hmap

theorem Represents.listed_neighbours (hA : A.Lawful) (h : Represents x d) {way : Direction}
    (hu : x.table[u]? = some i) :
    Listed (· < ·) (x.neighbours way i) fun v => (stepKind? d way u v).isSome := by
  have hperm := neighbours_perm hA x way i
  refine ⟨?_, fun v => by rw [hperm.mem_iff, List.mem_map, h.mem_edgesAt hA hu]⟩
  refine pairwise_map_name (hperm.nodup_iff.2 (List.Nodup.map_on ?_ (hA.nodup_edgesAt _ _ _)))
  rintro ⟨e, a⟩ hr ⟨e', a'⟩ hr' hname
  obtain ⟨he, hnear⟩ := (hA.mem_edgesAt _ _ _ _ _).1 hr
  obtain ⟨he', hnear'⟩ := (hA.mem_edgesAt _ _ _ _ _).1 hr'
  obtain rfl := h.far_inj way he he' (hnear.trans hnear'.symm) hname
  rw [he] at he'
  rw [Option.some.inj he']

theorem Represents.answers (hA : A.Lawful) (h : Represents x d) (way : Direction) (u : NodeId) :
    d.Answers u (fun v => (stepKind? d way u v).isSome) (x.index u |>.map (x.neighbours way)) := by
  unfold Digraph.Answers
  cases hu : x.table[u]? with
  | none =>
    rw [if_neg (h.not_mem_ids hu), index_of_unknown hu]
    rfl
  | some i =>
    rw [if_pos (h.mem_ids hu), index_of_known hu]
    exact ⟨_, rfl, h.listed_neighbours hA hu⟩

theorem degree_eq (hA : A.Lawful) (way : Direction) (u : NodeId) :
    (x.index u |>.map fun i => (A.edgesAt x.arena way i).length) =
      (x.index u |>.map (x.neighbours way)).map List.length := by
  cases x.index u with
  | error e => rfl
  | ok i =>
    simp only [Except.map]
    rw [(neighbours_perm hA x way i).length_eq, List.length_map]

/-- The queries of a graph in an arena answer what the digraph shows. -/
theorem Represents.shows_observe (hA : A.Lawful) (h : Represents x d) : d.Shows x.observe where
  contains _ := h.contains_iff
  kind? _ _ := h.kind?_eq hA
  nodes := h.listed_nodes
  edges := h.listed_edges hA
  successors := h.answers hA .forward
  predecessors := h.answers hA .backward
  inDegree := degree_eq hA .backward
  outDegree := degree_eq hA .forward
  nodeCount := h.length_nodes hA
  edgeCount := length_edges hA

end Indexed

/-! ## Runs of edits -/

/-- **A graph in an arena behaves as a digraph.** After any edits, started with no nodes, it has given the
same answers as the digraph and answers every query with what the digraph shows; table and arena agree,
and no edge dangles or is parallel to another. A refused edit leaves it as it was. The graphs of this
library give the same answers to the edits and to the queries. -/
theorem indexed_behaves_as_digraph (A : Arena) (hA : A.Lawful) (edits : List Edit) :
    let indexed := Edit.runAll Indexed.apply (Indexed.empty : Indexed A) edits
    let digraph := Edit.runAll Digraph.apply Digraph.empty edits
    let graph := Edit.runAll Graph.apply ∅ edits
    indexed.1 = digraph.1 ∧ digraph.2.Shows indexed.2.observe ∧ indexed.2.Sound ∧
      (∀ edit e, (indexed.2.apply edit).1 = .refused e → (indexed.2.apply edit).2 = indexed.2) ∧
      graph.1 = indexed.1 ∧ graph.2.observe = indexed.2.observe := by
  intro indexed digraph graph
  obtain ⟨hout, hrep⟩ := Edit.runAll_related Indexed.Represents
    (fun x d edit h => h.apply hA edit) edits _ _ (Indexed.Represents.empty hA)
  obtain ⟨hout', hview⟩ := Edit.runAll_related (fun g d => Graph.digraph g = d)
    (by rintro g _ edit rfl; exact Graph.digraph_apply g edit) edits _ _ Graph.digraph_empty
  have hshows : digraph.2.Shows indexed.2.observe := hrep.shows_observe hA
  have hshows' : digraph.2.Shows graph.2.observe := by
    rw [← hview]
    exact Graph.shows_observe graph.2
  exact ⟨hout, hshows, hrep.toSound, fun edit e => Indexed.apply_of_refused, hout'.trans hout.symm,
    hshows'.unique hshows⟩

/-- Removed with its edge and added again, `a` takes a slot that another node or edge had, and comes back
without the edge. -/
theorem indexed_graph_reuses_slot :
    let edits : List Edit :=
      [.addNode "a", .addNode "b", .addEdge "a" "b" .dependency, .removeNode "a", .addNode "c",
        .addNode "a", .addEdge "c" "b" .parentTest, .addEdge "a" "z" .dependency]
    let indexed := Edit.runAll Indexed.apply (Indexed.empty : Indexed slotArena) edits
    slotArena.Lawful ∧ indexed.2.Sound ∧
      indexed.1 = [.flag true, .flag true, .done, .flag true, .flag true, .flag true, .done,
        .refused (.unknownNode "z")] ∧
      indexed.2.observe.nodes = ["a", "b", "c"] ∧
      indexed.2.observe.edges = [("c", "b", .parentTest)] := by
  intro edits indexed
  obtain ⟨-, -, hsound, -, hout, hview⟩ := indexed_behaves_as_digraph slotArena slotArena_lawful edits
  refine ⟨slotArena_lawful, hsound, ?_, ?_, ?_⟩
  · rw [← hout]
    decide +kernel
  · rw [← hview]
    decide +kernel
  · rw [← hview]
    decide +kernel

end Lineage
