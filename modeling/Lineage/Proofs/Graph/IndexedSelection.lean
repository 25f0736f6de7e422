import Lineage.Proofs.Graph.IndexedReach
import Lineage.Proofs.Graph.Origins

/-!
# Selections in an arena

In an arena a selection is searched with labels by index, and an arena lists the neighbours of a node in an
order of its own. So which two of several equally near origins a node keeps is not the same as in the search
by identities. But each round is a round of such a search that lists the neighbours in another order
(`Views.passOn`), and what is known between two rounds does not depend on the order (`Traces`). Every search
comes to rest with the labels of nearest origins (`labels_are_nearest_origins`).
-/

namespace Lineage

open Lineage.Graph (Direction Arrival Labelling)

namespace Indexed

variable {A : Arena}

/-! ## The search -/

/-- A label that waits to be passed on: `origin` reaches `index` in `distance` steps. -/
structure Token where
  index : Nat
  origin : Nat
  distance : Nat
deriving DecidableEq, Repr

/-- The origins that reach each node (in `select_related`). -/
abbrev Origins := Std.HashMap Nat (List Nat)

/-- Makes a node an origin, unless it is one already. -/
def enlist (s : Origins × List Token) (i : Nat) : Origins × List Token :=
  let known := s.1.getD i []
  if known.contains i then s else (s.1.insert i (known ++ [i]), s.2 ++ [⟨i, i, 0⟩])

/-- The search at its start: the known ones of the selected nodes are origins. -/
def origins (x : Indexed A) (selected : List NodeId) : Origins × List Token :=
  (selected.filterMap fun id => x.table[id]?).foldl enlist (∅, [])

/-- Labels nodes with an origin, unless they have that label already or two others; the answer lists those
that have it now and did not before. -/
def label (origin : Nat) (labels : Origins) : List Nat → List Nat × Origins
  | [] => ([], labels)
  | i :: rest =>
    let known := labels.getD i []
    if known.length < 2 && !known.contains origin then
      let (new, labels) := label origin (labels.insert i (known ++ [origin])) rest
      (i :: new, labels)
    else label origin labels rest

/-- Passes a label on to the neighbours of its node, unless the bound is reached there
(in `select_related`). -/
def passOn (x : Indexed A) (way : Direction) (bound : Option Nat) (labels : Origins) (a : Token) :
    Origins × List Token :=
  if bound.any (· ≤ a.distance) then (labels, [])
  else
    let (new, labels) := label a.origin labels (x.ends way EdgeKind.traversable a.index)
    (labels, new.map (⟨·, a.origin, a.distance + 1⟩))

/-- The nodes that an origin other than themselves reaches. -/
def reached (x : Indexed A) (labels : Origins) : NodeSet :=
  .ofList ((labels.toList.filter fun r => r.2.any (· != r.1)).map fun r => x.name r.1)

/-- There is no answer only if the search did not come to an end. -/
def selectRelated (x : Indexed A) (way : Direction) (selected : List NodeId) (bound : Option Nat) :
    Option NodeSet :=
  (drain (x.passOn way bound) (2 * A.nodeCount x.arena) (x.origins selected).1
    (x.origins selected).2).map x.reached

/-- The search after so many rounds. -/
def selecting (x : Indexed A) (way : Direction) (bound : Option Nat) (selected : List NodeId)
    (rounds : Nat) : Round Origins Token :=
  Round.after (x.passOn way bound) ⟨[], (x.origins selected).1, (x.origins selected).2⟩ rounds

/-! ## By identities -/

def arrival (x : Indexed A) (a : Token) : Arrival := ⟨x.name a.index, x.name a.origin, a.distance⟩

def originsOf (x : Indexed A) (labels : Origins) (v : NodeId) : List NodeId :=
  match x.table[v]? with
  | some i => (labels.getD i []).map x.name
  | none => []

def snapshot (x : Indexed A) (r : Round Origins Token) : Labelling.Snapshot :=
  ⟨x.originsOf r.state, r.done.map x.arrival, r.queue.map x.arrival⟩

variable {x : Indexed A} {g : Graph} {way : Direction} {bound : Option Nat} {selected : List NodeId}
  {labels : Origins} {queue done : List Token} {targets : List Nat} {a : Token} {l : Labelling}
  {i j o n : Nat} {v : NodeId}

/-- The labels by index and the tokens are, by identities, those of a search there. -/
structure Views (x : Indexed A) (labels : Origins) (queue : List Token) (l : Labelling) : Prop where
  used : ∀ i known, labels[i]? = some known → x.Used i ∧ ∀ o ∈ known, x.Used o
  tokens : ∀ a ∈ queue, x.Used a.index ∧ x.Used a.origin
  labels : ∀ v, l.originsOf v = x.originsOf labels v
  queue : l.queue = queue.map x.arrival

theorem Sound.originsOf_name (hx : x.Sound) (hi : x.Used i) :
    x.originsOf labels (x.name i) = (labels.getD i []).map x.name := by
  unfold originsOf
  rw [hx.table_name hi]

theorem Sound.originsOf_insert (hx : x.Sound) (hi : x.Used i) (known : List Nat) :
    x.originsOf (labels.insert i known) v =
      if x.name i = v then known.map x.name else x.originsOf labels v := by
  unfold originsOf
  cases hv : x.table[v]? with
  | none =>
    rw [if_neg]
    rintro rfl
    rw [hx.table_name hi] at hv
    cases hv
  | some j =>
    have hij : x.name i = v ↔ i = j := by
      rw [← hx.name_eq hv]
      exact hx.name_inj hi (hx.isSome_node? hv)
    simp only [hij, Std.HashMap.getD_insert, beq_iff_eq]
    split <;> rfl

theorem Views.used_of_mem (h : x.Views labels queue l) (ho : o ∈ labels.getD i []) : x.Used o := by
  rw [Std.HashMap.getD_eq_getD_getElem?] at ho
  cases hi : labels[i]? with
  | none => simp [hi] at ho
  | some known => exact (h.used i known hi).2 o (by simpa [hi] using ho)

/-- A node has the same labels, and so as many, by index as by identity. -/
theorem Views.contains_originsOf (hx : x.Sound) (h : x.Views labels queue l) (hi : x.Used i)
    (ho : x.Used o) : (l.originsOf (x.name i)).contains (x.name o) = (labels.getD i []).contains o := by
  rw [h.labels, hx.originsOf_name hi, Bool.eq_iff_iff, List.contains_iff_mem, List.contains_iff_mem,
    List.mem_map]
  constructor
  · rintro ⟨p, hp, hname⟩
    rwa [← (hx.name_inj (h.used_of_mem hp) ho).1 hname]
  · exact fun hmem => ⟨o, hmem, rfl⟩

theorem Views.length_originsOf (hx : x.Sound) (h : x.Views labels queue l) (hi : x.Used i) :
    (l.originsOf (x.name i)).length = (labels.getD i []).length := by
  rw [h.labels, hx.originsOf_name hi, List.length_map]

theorem Views.push (hx : x.Sound) (h : x.Views labels queue l) (hi : x.Used i) (ho : x.Used o) (n : Nat) :
    x.Views (labels.insert i (labels.getD i [] ++ [o])) (queue ++ [⟨i, o, n⟩])
      (l.push ⟨x.name i, x.name o, n⟩) where
  used j known hj := by
    rw [Std.HashMap.getElem?_insert] at hj
    split at hj
    · rename_i hij
      obtain rfl := beq_iff_eq.1 hij
      obtain rfl := Option.some.inj hj
      refine ⟨hi, List.forall_mem_append.2 ⟨fun p => h.used_of_mem, ?_⟩⟩
      simpa using ho
    · exact h.used j known hj
  tokens := List.forall_mem_append.2 ⟨h.tokens, by simpa using ⟨hi, ho⟩⟩
  labels v := by
    rw [Labelling.originsOf_push, hx.originsOf_insert hi, h.labels, List.map_append,
      ← hx.originsOf_name hi]
    refine if_ctx_congr Iff.rfl (fun hv => ?_) fun _ => rfl
    rw [← hv]
    rfl
  queue := by rw [Labelling.queue_push, h.queue, List.map_append]; rfl

/-! ## One round -/

theorem label_cons_of_room {rest : List Nat}
    (h : (labels.getD i []).length < 2 ∧ o ∉ labels.getD i []) :
    label o labels (i :: rest) =
      (i :: (label o (labels.insert i (labels.getD i [] ++ [o])) rest).1,
        (label o (labels.insert i (labels.getD i [] ++ [o])) rest).2) :=
  if_pos (by simpa using h)

theorem label_cons_of_full {rest : List Nat}
    (h : ¬ ((labels.getD i []).length < 2 ∧ o ∉ labels.getD i [])) :
    label o labels (i :: rest) = label o labels rest :=
  if_neg (by simpa using h)

/-- An offer is taken up by index exactly if it is taken up by identity. -/
theorem Views.offer (hx : x.Sound) (h : x.Views labels queue l) (hi : x.Used i) (ho : x.Used o) (n : Nat) :
    l.offer ⟨x.name i, x.name o, n⟩ =
      if (labels.getD i []).length < 2 ∧ o ∉ labels.getD i [] then l.push ⟨x.name i, x.name o, n⟩
      else l := by
  have hlength := h.length_originsOf hx hi
  have hcontains := h.contains_originsOf hx hi ho
  unfold Labelling.offer
  simp only [hlength, hcontains, Bool.and_eq_true, decide_eq_true_eq, Bool.not_eq_true',
    ← Bool.not_eq_true, List.contains_iff_mem]

theorem Views.label (hx : x.Sound) (h : x.Views labels queue l) (ho : x.Used o)
    (htargets : ∀ i ∈ targets, x.Used i) (n : Nat) :
    x.Views (label o labels targets).2 (queue ++ (label o labels targets).1.map (⟨·, o, n + 1⟩))
      (l.passOn (targets.map x.name) (x.name o) n) := by
  induction targets generalizing labels queue l with
  | nil =>
    simp only [Indexed.label, List.map_nil, List.append_nil]
    exact h
  | cons i rest ih =>
    obtain ⟨hi, hrest⟩ := List.forall_mem_cons.1 htargets
    rw [List.map_cons, Labelling.passOn_cons]
    have hoffer := h.offer hx hi ho (n + 1)
    by_cases hroom : (labels.getD i []).length < 2 ∧ o ∉ labels.getD i []
    · have hnext := ih (h.push hx hi ho (n + 1)) hrest
      rw [List.append_assoc] at hnext
      rw [label_cons_of_room hroom, hoffer, if_pos hroom]
      exact hnext
    · rw [label_cons_of_full hroom, hoffer, if_neg hroom]
      exact ih h hrest

/-- A round by index is a round by identity with the neighbours as the arena lists them. -/
theorem Views.passOn (hA : A.Lawful) (hx : x.Sound) (h : x.Views labels (a :: queue) l) :
    x.Views (x.passOn way bound labels a).1 (queue ++ (x.passOn way bound labels a).2)
      (l.turn bound (x.arrival a) (queue.map x.arrival)
        ((x.ends way EdgeKind.traversable a.index).map x.name)) := by
  obtain ⟨⟨-, ho⟩, htokens⟩ := List.forall_mem_cons.1 h.tokens
  have hrest : x.Views labels queue { l with queue := queue.map x.arrival } :=
    ⟨h.used, htokens, h.labels, rfl⟩
  have hdistance : (x.arrival a).distance = a.distance := rfl
  unfold Indexed.passOn Labelling.turn
  rw [hdistance]
  by_cases hbound : bound.any (· ≤ a.distance) = true
  · rw [if_pos hbound, if_pos hbound, List.append_nil]
    exact hrest
  · rw [if_neg hbound, if_neg hbound]
    exact hrest.label hx ho (fun i => hx.used_of_mem_ends hA) a.distance

/-! ## Where it stands -/

/-- The search stands where one by identities stands that took the same. -/
def Traces (x : Indexed A) (g : Graph) (way : Direction) (bound : Option Nat) (selected : List NodeId)
    (done : List Token) (labels : Origins) (queue : List Token) : Prop :=
  ∃ l, x.Views labels queue l ∧ l.After g way bound selected (done.map x.arrival)

theorem Traces.passOn (hA : A.Lawful) (hx : x.Represents g.digraph)
    (h : x.Traces g way bound selected done labels (a :: queue)) :
    x.Traces g way bound selected (done ++ [a]) (x.passOn way bound labels a).1
      (queue ++ (x.passOn way bound labels a).2) := by
  obtain ⟨l, hviews, hafter⟩ := h
  have hused := (hviews.tokens a List.mem_cons_self).1
  refine ⟨_, hviews.passOn hA hx.toSound, ?_⟩
  rw [List.map_append]
  refine hafter.turn hviews.queue fun w => ?_
  rw [List.mem_map]
  exact hx.mem_ends_traversable hA hused

/-! ## Whole searches -/

theorem enlist_eq : enlist (labels, queue) i =
    if (labels.getD i []).contains i then (labels, queue)
    else (labels.insert i (labels.getD i [] ++ [i]), queue ++ [⟨i, i, 0⟩]) := rfl

theorem Views.enlist (hx : x.Represents g.digraph) (h : x.Views labels queue l) (hi : x.Used i) :
    x.Views (enlist (labels, queue) i).1 (enlist (labels, queue) i).2 (l.enlist g (x.name i)) := by
  rw [enlist_eq]
  unfold Labelling.enlist
  rw [hx.contains_name hi, h.contains_originsOf hx.toSound hi hi, Bool.true_and]
  cases (labels.getD i []).contains i with
  | true => exact h
  | false => exact h.push hx.toSound hi hi 0

theorem Views.enlistAll (hx : x.Represents g.digraph) (h : x.Views labels queue l) (ids : List NodeId) :
    x.Views ((ids.filterMap fun id => x.table[id]?).foldl Indexed.enlist (labels, queue)).1
      ((ids.filterMap fun id => x.table[id]?).foldl Indexed.enlist (labels, queue)).2
      (ids.foldl (Labelling.enlist g) l) := by
  induction ids generalizing labels queue l with
  | nil => exact h
  | cons id rest ih =>
    cases hid : x.table[id]? with
    | none =>
      have hunknown : g.contains id = false := by
        rw [← Bool.not_eq_true]
        exact fun hc => hx.not_mem_ids hid (Graph.mem_digraph.2 hc)
      have hskip : l.enlist g id = l := by simp [Labelling.enlist, hunknown]
      rw [List.filterMap_cons_none hid, List.foldl_cons, hskip]
      exact ih h
    | some i =>
      have hnext := h.enlist hx (hx.isSome_node? hid)
      rw [hx.name_eq hid] at hnext
      rw [List.filterMap_cons_some hid]
      exact ih hnext

theorem Traces.start (hx : x.Represents g.digraph) :
    x.Traces g way bound selected [] (x.origins selected).1 (x.origins selected).2 := by
  have hempty : x.Views ∅ [] ⟨∅, []⟩ :=
    ⟨by simp, by simp, fun v => by unfold originsOf; split <;> simp [Labelling.originsOf], rfl⟩
  exact ⟨_, hempty.enlistAll hx selected, .start g way bound selected⟩

theorem Traces.length_le (h : x.Traces g way bound selected done labels queue) :
    (done ++ queue).length ≤ 2 * g.nodeCount := by
  obtain ⟨l, hviews, hafter⟩ := h
  have hle := hafter.length_le
  rwa [hviews.queue, ← List.map_append, List.length_map] at hle

theorem Represents.traces (hA : A.Lawful) (hx : x.Represents g.digraph) (rounds : Nat) :
    x.Traces g way bound selected (x.selecting way bound selected rounds).done
      (x.selecting way bound selected rounds).state (x.selecting way bound selected rounds).queue :=
  kept_after (x.Traces g way bound selected) rounds (fun _ _ _ _ h => h.passOn hA hx) (Traces.start hx)

/-- Twice the number of nodes is enough for a search to come to rest. -/
theorem Represents.queue_selecting (hA : A.Lawful) (hx : x.Represents g.digraph) :
    (x.selecting way bound selected (2 * g.nodeCount)).queue = [] :=
  queue_after_eq_nil (x.Traces g way bound selected) _ (fun _ _ _ _ h => h.passOn hA hx)
    (fun _ _ _ h => h.length_le) (Traces.start hx) (by simp)

theorem Views.snapshot_eq {r : Round Origins Token} (h : x.Views r.state r.queue l) :
    x.snapshot r = ⟨l.originsOf, r.done.map x.arrival, l.queue⟩ := by
  unfold snapshot
  rw [h.queue, funext h.labels]

theorem Represents.orderly_snapshot (hA : A.Lawful) (hx : x.Represents g.digraph) (rounds : Nat) :
    Labelling.Orderly g selected (x.snapshot (x.selecting way bound selected rounds)) := by
  obtain ⟨l, hviews, hafter⟩ := hx.traces hA rounds
  rw [hviews.snapshot_eq]
  exact hafter.orderly

theorem Represents.nearest_snapshot (hA : A.Lawful) (hx : x.Represents g.digraph) :
    Labelling.Nearest g way bound selected
      (x.snapshot (x.selecting way bound selected (2 * g.nodeCount))) := by
  obtain ⟨l, hviews, hafter⟩ := hx.traces hA (2 * g.nodeCount)
  have hrest := hviews.queue
  rw [hx.queue_selecting hA] at hrest
  rw [hviews.snapshot_eq]
  exact hafter.nearest hrest

/-- The same nodes are reached by index and by identity. -/
theorem Views.reached (hx : x.Sound) (h : x.Views labels queue l) : x.reached labels = l.reached := by
  refine Std.ExtTreeSet.ext_mem fun v => ?_
  rw [Labelling.mem_reached, h.labels]
  unfold Indexed.reached
  simp only [Graph.mem_ofList, List.mem_map, List.mem_filter, Std.HashMap.mem_toList_iff_getElem?_eq_some,
    List.any_eq_true, bne_iff_ne, Prod.exists]
  constructor
  · rintro ⟨i, known, ⟨hi, o, ho, hne⟩, rfl⟩
    obtain ⟨hused, hknown⟩ := h.used i known hi
    rw [hx.originsOf_name hused, Std.HashMap.getD_eq_getD_getElem?, hi]
    exact ⟨x.name o, List.mem_map_of_mem ho, fun heq => hne ((hx.name_inj (hknown o ho) hused).1 heq)⟩
  · rintro ⟨_, hmem, hne⟩
    unfold originsOf at hmem
    cases hv : x.table[v]? with
    | none => simp [hv] at hmem
    | some i =>
      rw [hv] at hmem
      obtain ⟨o, ho, rfl⟩ := List.mem_map.1 hmem
      rw [Std.HashMap.getD_eq_getD_getElem?] at ho
      cases hi : labels[i]? with
      | none => simp [hi] at ho
      | some known =>
        refine ⟨i, known, ⟨hi, o, by simpa [hi] using ho, ?_⟩, hx.name_eq hv⟩
        rintro rfl
        exact hne (hx.name_eq hv)

/-- A search in an arena comes to an end, and reaches what the search by identities reaches. -/
theorem Represents.selectRelated_eq (hA : A.Lawful) (hx : x.Represents g.digraph) :
    x.selectRelated way selected bound = some (g.selectRelated way selected bound) := by
  have hrest : (x.selecting way bound selected (2 * g.nodeCount)).queue = [] := hx.queue_selecting hA
  obtain ⟨l, hviews, hafter⟩ := hx.traces hA (2 * g.nodeCount)
  have hend := hviews.queue
  rw [hrest] at hend
  have hdrain : drain (x.passOn way bound) (2 * g.nodeCount) (x.origins selected).1 (x.origins selected).2 =
      some (x.selecting way bound selected (2 * g.nodeCount)).state :=
    drain_eq_some _ hrest
  unfold selectRelated
  rw [hx.nodeCount_eq hA, hdrain, Option.map_some, hviews.reached hx.toSound]
  refine congrArg some (Std.ExtTreeSet.ext_mem fun v => ?_)
  rw [hafter.mem_reached hend, Graph.mem_selectRelated]

end Indexed

/-! ## Nearest origins -/

open Graph.Labelling in
/-- **Labels are nearest origins.** A search from several origins takes arrivals by distance, no label
twice, and never has more than two at a node; so it comes to rest after at most twice as many rounds as there
are nodes. Then each node has as many labels as selected nodes lead to it within the bound, though no more
than two; each came over a shortest walk, and a selected node that is missing is no nearer than one that is
a label. This holds of the search by identities, and of the search in an arena after any edits that lead to
this graph, which may keep other labels and still reaches the same nodes. -/
theorem labels_are_nearest_origins (g : Graph) (way : Direction) (selected : List NodeId)
    (bound : Option Nat) :
    (∀ rounds, Orderly g selected (snapshot g way bound selected rounds)) ∧
    Nearest g way bound selected (snapshot g way bound selected (2 * g.nodeCount)) ∧
    ∀ A : Arena, A.Lawful → ∀ edits : List Edit, (Edit.runAll Graph.apply ∅ edits).2 = g →
      let x := (Edit.runAll Indexed.apply (Indexed.empty : Indexed A) edits).2
      (∀ rounds, Orderly g selected (x.snapshot (x.selecting way bound selected rounds))) ∧
      Nearest g way bound selected (x.snapshot (x.selecting way bound selected (2 * g.nodeCount))) ∧
      x.selectRelated way selected bound = some (g.selectRelated way selected bound) := by
  refine ⟨fun rounds => ?_, ?_, ?_⟩
  · exact (after_run g way bound selected rounds).orderly
  · exact (after_run g way bound selected _).nearest (queue_run_eq_nil g way bound selected)
  · rintro A hA edits rfl x
    have hx := represents_runAll hA edits
    exact ⟨hx.orderly_snapshot hA, hx.nearest_snapshot hA, hx.selectRelated_eq hA⟩

open Graph.Labelling in
/-- Along `a`, `b`, `c` and `d` the label of `a` is dropped at `c`, which is one of two labels there itself.
So it never comes to `d`, where `c` and `b` are nearer. -/
theorem labels_are_nearest_origins_chain :
    let edits : List Edit :=
      [.ofEdges [("c", "d"), ("x", "c"), ("a", "b"), ("b", "c")], .removeNode "x", .addNode "e",
        .addEdge "d" "e" .parentTest]
    let g := (Edit.runAll Graph.apply ∅ edits).2
    let x := (Edit.runAll Indexed.apply (Indexed.empty : Indexed slotArena) edits).2
    let selected := ["a", "b", "unknown", "c", "a"]
    let last := x.snapshot (x.selecting .forward none selected (2 * g.nodeCount))
    slotArena.Lawful ∧ (snapshot g .forward none selected (2 * g.nodeCount)).labels "d" = ["c", "b"] ∧
      (last.labels "d").length = 2 ∧ "a" ∉ last.labels "d" ∧
      x.selectRelated .forward selected none = some (.ofList ["b", "c", "d"]) := by
  intro edits g x selected last
  obtain ⟨-, hmodel, harena⟩ := labels_are_nearest_origins g .forward selected none
  obtain ⟨horderly, hlast, hreached⟩ := harena slotArena slotArena_lawful edits rfl
  have hlabels : (snapshot g .forward none selected (2 * g.nodeCount)).labels "d" = ["c", "b"] := by
    decide +kernel
  have hcount : (last.labels "d").length = 2 := by
    rw [hlast.count, ← hmodel.count, hlabels]
    rfl
  have hc : g.Apart .forward "c" "d" 1 := hmodel.distance ⟨"d", "c", 1⟩ (by decide +kernel)
  have hb : g.Apart .forward "b" "d" 2 := hmodel.distance ⟨"d", "b", 2⟩ (by decide +kernel)
  have ha : g.Apart .forward "a" "d" 3 :=
    (labels_are_nearest_origins g .forward ["a"] none).2.1.distance ⟨"d", "a", 3⟩ (by decide +kernel)
  refine ⟨slotArena_lawful, hlabels, hcount, fun hmem => ?_, ?_⟩
  · -- two labels and `a` among them would leave out `b` or `c`
    have hnearer : ∀ p ∈ selected, g.contains p = true → ∀ n, g.Apart .forward p "d" n → n < 3 →
        p ∈ last.labels "d" := by
      intro p hp hknown n hn hlt
      by_contra hnot
      have hle := hlast.nearest "d" "a" hmem p hp hknown hnot 3 n ha hn
      omega
    have hbmem := hnearer "b" (by decide) (by decide +kernel) 2 hb (by decide)
    have hcmem := hnearer "c" (by decide) (by decide +kernel) 1 hc (by decide)
    rcases eq_or_eq_of_mem (Nat.le_of_eq hcount) hbmem hcmem (by decide) hmem with h | h
    · exact absurd h (by decide)
    · exact absurd h (by decide)
  · have hmodelReached : g.selectRelated .forward selected none = .ofList ["b", "c", "d"] := by
      decide +kernel
    rw [hreached, hmodelReached]

end Lineage
