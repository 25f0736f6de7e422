import Lineage.Proofs.Graph.Batches
import Lineage.Proofs.Graph.Build

/-!
# Graphs as labelled digraphs

What a graph is meant to be: a finite set of identities, and for some ordered pairs of them a kind. A
`Digraph` says how each edit changes that and what it is answered with; `Digraph.Shows` says what every
query has to answer, and leaves nothing open (`Digraph.Shows.unique`). The graphs of this library follow
it, edit by edit (`Graph.digraph_apply`) and query by query (`Graph.shows_observe`).
-/

namespace Lineage

/-! ## Edits -/

/-- A change to a graph. -/
inductive Edit where
  | addNode (id : NodeId)
  | removeNode (id : NodeId)
  | addEdge (u v : NodeId) (kind : EdgeKind)
  | removeEdge (u v : NodeId)
  /-- Starts over with the graph of these dependencies. -/
  | ofEdges (pairs : List (NodeId × NodeId))
deriving DecidableEq, Repr

/-- What a change is answered with. -/
inductive Outcome where
  | flag (b : Bool)
  | done
  | refused (e : GraphError)
deriving DecidableEq, Repr

/-- Makes the changes one after the other. The answers are in the same order. -/
def Edit.runAll {σ : Type} (apply : σ → Edit → Outcome × σ) : σ → List Edit → List Outcome × σ
  | s, [] => ([], s)
  | s, edit :: edits =>
    let (outcome, s) := apply s edit
    let (outcomes, s) := runAll apply s edits
    (outcome :: outcomes, s)

/-- Two ways to keep a graph give the same answers to all edits if they do to each, and stay related. -/
theorem Edit.runAll_related {σ τ : Type} {apply : σ → Edit → Outcome × σ} {apply' : τ → Edit → Outcome × τ}
    (related : σ → τ → Prop)
    (hstep : ∀ s t edit, related s t →
      (apply s edit).1 = (apply' t edit).1 ∧ related (apply s edit).2 (apply' t edit).2)
    (edits : List Edit) (s : σ) (t : τ) (h : related s t) :
    (runAll apply s edits).1 = (runAll apply' t edits).1 ∧
      related (runAll apply s edits).2 (runAll apply' t edits).2 := by
  induction edits generalizing s t with
  | nil => exact ⟨rfl, h⟩
  | cons edit edits ih =>
    obtain ⟨hout, hnext⟩ := hstep s t edit h
    obtain ⟨houts, hend⟩ := ih _ _ hnext
    exact ⟨by simp only [runAll, hout, houts], hend⟩

/-! ## Digraphs -/

/-- A finite set of identities, and a kind for some ordered pairs of them. -/
@[ext] structure Digraph where
  ids : Finset NodeId
  kind? : NodeId → NodeId → Option EdgeKind
  closed : ∀ u v kind, kind? u v = some kind → u ∈ ids ∧ v ∈ ids

namespace Digraph

def empty : Digraph where
  ids := ∅
  kind? _ _ := none
  closed := by simp

def insert (d : Digraph) (id : NodeId) : Digraph where
  ids := Insert.insert id d.ids
  kind? := d.kind?
  closed u v kind h := by
    obtain ⟨hu, hv⟩ := d.closed u v kind h
    exact ⟨Finset.mem_insert_of_mem hu, Finset.mem_insert_of_mem hv⟩

def erase (d : Digraph) (id : NodeId) : Digraph where
  ids := d.ids.erase id
  kind? u v := if id = u ∨ id = v then none else d.kind? u v
  closed u v kind h := by
    split at h
    · cases h
    · rename_i hne
      obtain ⟨hu, hv⟩ := d.closed u v kind h
      exact ⟨Finset.mem_erase.2 ⟨fun he => hne (.inl he.symm), hu⟩,
        Finset.mem_erase.2 ⟨fun he => hne (.inr he.symm), hv⟩⟩

/-- Gives a pair of members this kind. -/
def link (d : Digraph) (u v : NodeId) (kind : EdgeKind) : Digraph where
  ids := d.ids
  kind? a b := if (u = a ∧ v = b) ∧ u ∈ d.ids ∧ v ∈ d.ids then some kind else d.kind? a b
  closed a b kind' h := by
    split at h
    · rename_i hab
      obtain ⟨⟨rfl, rfl⟩, hmem⟩ := hab
      exact hmem
    · exact d.closed a b kind' h

def unlink (d : Digraph) (u v : NodeId) : Digraph where
  ids := d.ids
  kind? a b := if u = a ∧ v = b then none else d.kind? a b
  closed a b kind h := by
    split at h
    · cases h
    · exact d.closed a b kind h

/-- The digraph of these dependencies. -/
def ofEdges (pairs : List (NodeId × NodeId)) : Digraph :=
  pairs.foldl (fun d (u, v) => ((d.insert u).insert v).link u v .dependency) empty

/-- What each edit does and answers. An edge needs both its ends; the first that is missing is named. -/
def apply (d : Digraph) : Edit → Outcome × Digraph
  | .addNode id => (.flag (id ∉ d.ids), d.insert id)
  | .removeNode id => (.flag (id ∈ d.ids), d.erase id)
  | .addEdge u v kind =>
    if u ∉ d.ids then (.refused (.unknownNode u), d)
    else if v ∉ d.ids then (.refused (.unknownNode v), d)
    else (.done, d.link u v kind)
  | .removeEdge u v =>
    if u ∉ d.ids then (.refused (.unknownNode u), d)
    else if v ∉ d.ids then (.refused (.unknownNode v), d)
    else (.flag (d.kind? u v).isSome, d.unlink u v)
  | .ofEdges pairs => (.done, ofEdges pairs)

/-! Edits that have nothing to do. -/

section
variable {d : Digraph} {u v id : NodeId}

theorem insert_of_mem (h : id ∈ d.ids) : d.insert id = d :=
  Digraph.ext (Finset.insert_eq_of_mem h) rfl

theorem erase_of_not_mem (h : id ∉ d.ids) : d.erase id = d := by
  refine Digraph.ext (Finset.erase_eq_of_notMem h) ?_
  funext u v
  show (if id = u ∨ id = v then none else d.kind? u v) = d.kind? u v
  split
  · rename_i htouch
    cases hk : d.kind? u v with
    | none => rfl
    | some kind =>
      obtain ⟨hu, hv⟩ := d.closed u v kind hk
      rcases htouch with rfl | rfl
      · exact absurd hu h
      · exact absurd hv h
  · rfl

theorem unlink_of_none (h : d.kind? u v = none) : d.unlink u v = d := by
  refine Digraph.ext rfl ?_
  funext a b
  show (if u = a ∧ v = b then none else d.kind? a b) = d.kind? a b
  split
  · rename_i hab
    rw [← hab.1, ← hab.2, h]
  · rfl

end

end Digraph

/-! ## Queries -/

/-- The answers of a graph to all queries. -/
@[ext] structure Observation where
  contains : NodeId → Bool
  kind? : NodeId → NodeId → Option EdgeKind
  nodes : List NodeId
  edges : List (NodeId × NodeId × EdgeKind)
  successors : NodeId → Except GraphError (List NodeId)
  predecessors : NodeId → Except GraphError (List NodeId)
  inDegree : NodeId → Except GraphError Nat
  outDegree : NodeId → Except GraphError Nat
  nodeCount : Nat
  edgeCount : Nat

/-- The list holds what `p` holds of, in the order `lt`. -/
def Listed {α : Type} (lt : α → α → Prop) (l : List α) (p : α → Prop) : Prop :=
  l.Pairwise lt ∧ ∀ a, a ∈ l ↔ p a

/-- A list in a strict order is determined by its members. -/
theorem Listed.unique {α : Type} {lt : α → α → Prop} {l l' : List α} {p : α → Prop}
    (hirr : ∀ a, ¬ lt a a) (hasym : ∀ a b, lt a b → ¬ lt b a) (h : Listed lt l p) (h' : Listed lt l' p) :
    l = l' := by
  have hne : ∀ a b, lt a b → a ≠ b := by
    rintro a b hab rfl
    exact hirr a hab
  have hnodup : ∀ {k : List α}, k.Pairwise lt → k.Nodup := fun hk => hk.imp (hne _ _)
  have hperm : l.Perm l' := (List.perm_ext_iff_of_nodup (hnodup h.1) (hnodup h'.1)).2 fun a => by
    rw [h.2, h'.2]
  exact List.Perm.eq_of_pairwise (fun a b _ _ hab hba => absurd hba (hasym a b hab)) h.1 h'.1 hperm

theorem Listed.unique_of_lt {l l' : List NodeId} {p : NodeId → Prop} (h : Listed (· < ·) l p)
    (h' : Listed (· < ·) l' p) : l = l' :=
  h.unique (fun a => lt_irrefl a) (fun _ _ => lt_asymm) h'

/-- By source, then by target. No two edges between the same ends are in this order. -/
def EdgeBefore (a b : NodeId × NodeId × EdgeKind) : Prop :=
  a.1 < b.1 ∨ a.1 = b.1 ∧ a.2.1 < b.2.1

theorem EdgeBefore.irrefl (a : NodeId × NodeId × EdgeKind) : ¬ EdgeBefore a a := by
  simp [EdgeBefore]

theorem EdgeBefore.asymm (a b : NodeId × NodeId × EdgeKind) (h : EdgeBefore a b) : ¬ EdgeBefore b a := by
  rintro h'
  rcases h with h | ⟨he, h⟩ <;> rcases h' with h' | ⟨he', h'⟩
  · exact lt_asymm h h'
  · exact lt_irrefl _ (he' ▸ h)
  · exact lt_irrefl _ (he ▸ h')
  · exact lt_asymm h h'

namespace Digraph

variable {d : Digraph} {o o' : Observation} {u v : NodeId}

/-- The answer about a node: the list of what `p` holds of, or a refusal if it is unknown. -/
def Answers (d : Digraph) (id : NodeId) (p : NodeId → Prop) (answer : Except GraphError (List NodeId)) :
    Prop :=
  if id ∈ d.ids then ∃ l, answer = .ok l ∧ Listed (· < ·) l p else answer = .error (.unknownNode id)

/-- The right answers to all queries. Lists are in identity order; degrees and counts are the lengths of
the lists. -/
structure Shows (d : Digraph) (o : Observation) : Prop where
  contains : ∀ u, o.contains u = true ↔ u ∈ d.ids
  kind? : ∀ u v, o.kind? u v = d.kind? u v
  nodes : Listed (· < ·) o.nodes (· ∈ d.ids)
  edges : Listed EdgeBefore o.edges fun e => d.kind? e.1 e.2.1 = some e.2.2
  successors : ∀ u, d.Answers u (fun v => (d.kind? u v).isSome) (o.successors u)
  predecessors : ∀ v, d.Answers v (fun u => (d.kind? u v).isSome) (o.predecessors v)
  inDegree : ∀ v, o.inDegree v = (o.predecessors v).map List.length
  outDegree : ∀ u, o.outDegree u = (o.successors u).map List.length
  nodeCount : o.nodeCount = o.nodes.length
  edgeCount : o.edgeCount = o.edges.length

theorem Answers.unique {id : NodeId} {p : NodeId → Prop} {a a' : Except GraphError (List NodeId)}
    (h : d.Answers id p a) (h' : d.Answers id p a') : a = a' := by
  unfold Answers at h h'
  split at h
  · rename_i hid
    rw [if_pos hid] at h'
    obtain ⟨l, rfl, hl⟩ := h
    obtain ⟨l', rfl, hl'⟩ := h'
    rw [hl.unique_of_lt hl']
  · rename_i hid
    rw [if_neg hid] at h'
    rw [h, h']

/-- A digraph leaves no answer open. -/
theorem Shows.unique (h : d.Shows o) (h' : d.Shows o') : o = o' := by
  have hnodes : o.nodes = o'.nodes := h.nodes.unique_of_lt h'.nodes
  have hedges : o.edges = o'.edges := h.edges.unique EdgeBefore.irrefl EdgeBefore.asymm h'.edges
  have hsucc : o.successors = o'.successors := funext fun u => (h.successors u).unique (h'.successors u)
  have hpred : o.predecessors = o'.predecessors :=
    funext fun v => (h.predecessors v).unique (h'.predecessors v)
  refine Observation.ext ?_ ?_ hnodes hedges hsucc hpred ?_ ?_ ?_ ?_
  · funext u
    rw [Bool.eq_iff_iff, h.contains, h'.contains]
  · funext u v
    rw [h.kind?, h'.kind?]
  · funext v
    rw [h.inDegree, h'.inDegree, hpred]
  · funext u
    rw [h.outDegree, h'.outDegree, hsucc]
  · rw [h.nodeCount, h'.nodeCount, hnodes]
  · rw [h.edgeCount, h'.edgeCount, hedges]

end Digraph

/-! ## The graphs of this library -/

namespace Graph

variable {g : Graph} {u v id : NodeId}

def apply (g : Graph) : Edit → Outcome × Graph
  | .addNode id =>
    let (new, g) := g.addNode id
    (.flag new, g)
  | .removeNode id =>
    let (found, g) := g.removeNode id
    (.flag found, g)
  | .addEdge u v kind =>
    match g.addEdge u v kind with
    | .ok g => (.done, g)
    | .error e => (.refused e, g)
  | .removeEdge u v =>
    match g.removeEdge u v with
    | .ok (found, g) => (.flag found, g)
    | .error e => (.refused e, g)
  | .ofEdges pairs => (.done, ofEdges pairs)

def observe (g : Graph) : Observation where
  contains := g.contains
  kind? := g.kind?
  nodes := g.nodes
  edges := g.edges
  successors := g.successors?
  predecessors := g.predecessors?
  inDegree := g.inDegree
  outDegree := g.outDegree
  nodeCount := g.nodeCount
  edgeCount := g.edgeCount

/-- The digraph that a graph stands for. -/
def digraph (g : Graph) : Digraph where
  ids := g.nodeFinset
  kind? := g.kind?
  closed _ _ _ h := ⟨mem_nodeFinset.2 (contains_source h), mem_nodeFinset.2 (contains_target h)⟩

theorem mem_digraph : u ∈ g.digraph.ids ↔ g.contains u = true := mem_nodeFinset

theorem digraph_empty : digraph ∅ = .empty := by
  ext u
  · simp [mem_digraph, Digraph.empty]
  · simp [digraph, Digraph.empty]

theorem digraph_insertNode : (g.insertNode id).digraph = g.digraph.insert id := by
  ext u
  · simp [mem_digraph, Digraph.insert, eq_comm (a := id)]
  · simp [digraph, Digraph.insert]

theorem digraph_eraseNode : (g.eraseNode id).digraph = g.digraph.erase id := by
  ext u
  · simp [mem_digraph, Digraph.erase, eq_comm (a := id)]
  · simp [digraph, Digraph.erase]

theorem digraph_insertEdge {kind : EdgeKind} :
    (g.insertEdge u v kind).digraph = g.digraph.link u v kind := by
  by_cases h : g.contains u = true ∧ g.contains v = true
  · ext a
    · simp [mem_digraph, Digraph.link]
    · simp [digraph, Digraph.link, kind?_insertEdge h.1 h.2, mem_nodeFinset, h]
  · rw [insertEdge_of_unknown h]
    ext a
    · simp [Digraph.link]
    · simp [digraph, Digraph.link, mem_nodeFinset, h]

theorem digraph_eraseEdge : (g.eraseEdge u v).digraph = g.digraph.unlink u v := by
  ext a
  · simp [mem_digraph, Digraph.unlink]
  · simp [digraph, Digraph.unlink]

theorem digraph_ofEdges {pairs : List (NodeId × NodeId)} :
    (ofEdges pairs).digraph = .ofEdges pairs := by
  unfold ofEdges Digraph.ofEdges
  rw [← digraph_empty]
  generalize (∅ : Graph) = g
  induction pairs generalizing g with
  | nil => rfl
  | cons p rest ih =>
    rw [List.foldl_cons, List.foldl_cons, ih, digraph_insertEdge, digraph_insertNode, digraph_insertNode]

/-- Each edit does to a graph, and answers, what it does to its digraph. -/
theorem digraph_apply (g : Graph) (edit : Edit) :
    (g.apply edit).1 = (g.digraph.apply edit).1 ∧
      (g.apply edit).2.digraph = (g.digraph.apply edit).2 := by
  cases edit with
  | addNode id =>
    refine ⟨?_, digraph_insertNode⟩
    simp [apply, Digraph.apply, addNode, mem_digraph]
  | removeNode id =>
    refine ⟨?_, digraph_eraseNode⟩
    simp [apply, Digraph.apply, removeNode, mem_digraph]
  | addEdge u v kind =>
    by_cases hu : g.contains u = true
    · by_cases hv : g.contains v = true
      · simp [apply, Digraph.apply, addEdge_of_known, mem_digraph, hu, hv, digraph_insertEdge]
      · simp [apply, Digraph.apply, addEdge, known, mem_digraph, hu, hv, bind, Except.bind]
    · simp [apply, Digraph.apply, addEdge, known, mem_digraph, hu, bind, Except.bind]
  | removeEdge u v =>
    by_cases hu : g.contains u = true
    · by_cases hv : g.contains v = true
      · simp [apply, Digraph.apply, removeEdge, known, mem_digraph, hu, hv, bind, Except.bind, pure,
          Except.pure, digraph_eraseEdge]
        rfl
      · simp [apply, Digraph.apply, removeEdge, known, mem_digraph, hu, hv, bind, Except.bind]
    · simp [apply, Digraph.apply, removeEdge, known, mem_digraph, hu, bind, Except.bind]
  | ofEdges pairs => exact ⟨rfl, digraph_ofEdges⟩

/-! ### Lists -/

theorem pairwise_nodes : g.nodes.Pairwise (· < ·) :=
  Std.ExtTreeMap.ordered_keys.imp fun h => compare_lt_iff_lt.1 h

theorem pairwise_successors : (g.successors u).Pairwise (· < ·) :=
  Std.ExtTreeMap.ordered_keys.imp fun h => compare_lt_iff_lt.1 h

theorem pairwise_edges : g.edges.Pairwise EdgeBefore := by
  unfold edges
  rw [List.pairwise_flatMap]
  constructor
  · rintro ⟨u, row⟩ -
    rw [List.pairwise_map]
    exact Std.ExtTreeMap.ordered_keys_toList.imp fun h => .inr ⟨rfl, compare_lt_iff_lt.1 h⟩
  · refine Std.ExtTreeMap.ordered_keys_toList.imp ?_
    rintro ⟨u, row⟩ ⟨u', row'⟩ h x hx y hy
    obtain ⟨_, _, rfl⟩ := List.mem_map.1 hx
    obtain ⟨_, _, rfl⟩ := List.mem_map.1 hy
    exact .inl (compare_lt_iff_lt.1 h)

theorem length_edges : g.edges.length = g.edgeCount := by
  unfold edges edgeCount
  rw [Std.ExtTreeMap.foldl_eq_foldl_toList, List.length_flatMap]
  simp only [List.length_map, Std.ExtTreeMap.length_toList]
  rw [List.sum_eq_foldl, List.foldl_map]

theorem answers_of_known {l : NodeId → List NodeId} {p : NodeId → Prop} (hl : Listed (· < ·) (l id) p) :
    g.digraph.Answers id p (g.known id |>.map fun _ => l id) := by
  unfold Digraph.Answers known
  by_cases hid : g.contains id = true
  · simp only [mem_digraph, hid, if_true, Except.map]
    exact ⟨_, rfl, hl⟩
  · simp [mem_digraph, hid, Except.map]

/-- The queries of a graph answer what its digraph shows. -/
theorem shows_observe (g : Graph) : g.digraph.Shows g.observe where
  contains u := mem_digraph.symm
  kind? u v := rfl
  nodes := ⟨pairwise_nodes, fun u => mem_nodes.trans mem_digraph.symm⟩
  edges := ⟨pairwise_edges, fun e => mem_edges⟩
  successors u := answers_of_known ⟨pairwise_successors, fun v => by
    rw [mem_successors, ← Option.isSome_iff_exists]; rfl⟩
  predecessors v := answers_of_known ⟨pairwise_nodes.filter _, fun u => by
    rw [mem_predecessors, ← Option.isSome_iff_exists]; rfl⟩
  inDegree v := by
    simp only [observe, inDegree, predecessors?]
    cases g.known v <;> rfl
  outDegree u := by
    simp only [observe, outDegree, successors?, successors]
    cases g.known u <;> simp [Except.map]
  nodeCount := length_nodes.symm
  edgeCount := length_edges.symm

end Graph

end Lineage
