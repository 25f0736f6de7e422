import Lineage.Manifest.Link
import Lineage.Proofs.Graph.Build
import Lineage.Proofs.Manifest.Maps
import Mathlib.Data.List.TakeWhile

/-!
# The two ways to link

`linkBulk` enters every declaration of every member, `linkIncremental` only what the parent map holds,
which is what the last member of each identity declares. Each is refused at the first dependency that
is no member (`linkBulk_spec`, `linkIncremental_spec`). They agree exactly if no declaration that does
not count makes a difference (`linkBulk_eq_linkIncremental_iff`), which is so where no two members
share an identity.
-/

namespace Lineage.Manifest

variable {m : Manifest} {g : Graph} {id u v : NodeId} {pairs : List (NodeId × NodeId)}

/-! ## In one pass -/

theorem links_memberGraph :
    Graph.Links (memberGraph m.members) (· ∈ m.memberIds) fun _ _ => False := by
  have hfold : memberGraph m.members = m.memberIds.foldl Graph.insertNode ∅ := by
    unfold memberGraph memberIds
    rw [List.foldl_map]
  rw [hfold]
  refine ⟨fun u => ?_, fun u v kind => ?_⟩
  · rw [Graph.contains_insertNodes, Graph.contains_empty]
    simp
  · rw [Graph.kind?_insertNodes, Graph.kind?_empty]
    simp

theorem mem_declarations : (u, v) ∈ declarations m.members ↔ m.Declares u v := by
  unfold declarations Declares
  simp only [List.mem_flatMap, List.mem_map, Prod.mk.injEq]
  constructor
  · rintro ⟨member, hmem, d, hd, rfl, rfl⟩
    exact ⟨member, hmem, rfl, hd⟩
  · rintro ⟨member, hmem, rfl, hd⟩
    exact ⟨member, hmem, u, hd, rfl, rfl⟩

theorem linkKnown_eq :
    m.linkKnown = (memberGraph m.members).insertDependencies (declarations m.members) := rfl

theorem links_linkKnown :
    Graph.Links m.linkKnown (· ∈ m.memberIds) fun u v => m.Declares u v ∧ u ∈ m.memberIds := by
  rw [linkKnown_eq]
  refine links_memberGraph.insertDependencies.congr (fun _ => Iff.rfl) fun u v => ?_
  rw [false_or, mem_declarations]
  exact ⟨fun hd => ⟨hd.1, hd.2.1⟩, fun hd => ⟨hd.1, hd.2, hd.1.mem_memberIds⟩⟩

/-- Edges are added up to the first whose source is unknown. -/
theorem foldlM_addEdge {kind : EdgeKind} (hpairs : ∀ p ∈ pairs, g.contains p.2 = true) :
    pairs.foldlM (fun g (source, target) => g.addEdge source target kind) g =
      match pairs.find? fun p => !g.contains p.1 with
      | some p => .error (.unknownNode p.1)
      | none => .ok (g.insertEdges (fun _ _ => kind) pairs) := by
  induction pairs generalizing g with
  | nil => rfl
  | cons p rest ih =>
    obtain ⟨source, target⟩ := p
    have htarget : g.contains target = true := hpairs (source, target) List.mem_cons_self
    rw [List.foldlM_cons, List.find?_cons]
    cases hsource : g.contains source with
    | false => simp [Graph.addEdge, Graph.known, hsource, bind, Except.bind]
    | true =>
      have hrest := ih (g := g.insertEdge source target kind)
        fun p hp => by rw [Graph.contains_insertEdge]; exact hpairs p (List.mem_cons_of_mem _ hp)
      simp only [Graph.contains_insertEdge] at hrest
      simp only [Graph.addEdge_of_known hsource htarget, Bool.not_true]
      exact hrest

/-- Where edges from unknown nodes are left out, all others are added. -/
theorem foldlM_addEdge_known (hpairs : ∀ p ∈ pairs, g.contains p.2 = true) :
    pairs.foldlM (fun g (source, target) =>
        if g.contains source then g.addEdge source target .dependency else .ok g) g =
      .ok (g.insertDependencies pairs) := by
  induction pairs generalizing g with
  | nil => rfl
  | cons p rest ih =>
    obtain ⟨source, target⟩ := p
    have htarget : g.contains target = true := hpairs (source, target) List.mem_cons_self
    have hstep : (if g.contains source then g.addEdge source target .dependency else .ok g) =
        .ok (g.insertEdge source target .dependency) := by
      cases hsource : g.contains source with
      | true => exact Graph.addEdge_of_known hsource htarget
      | false =>
        have hunknown : ¬ (g.contains source = true ∧ g.contains target = true) := by simp [hsource]
        rw [Graph.insertEdge_of_unknown hunknown]
        rfl
    rw [List.foldlM_cons]
    simp only [hstep]
    exact ih fun p hp => by rw [Graph.contains_insertEdge]; exact hpairs p (List.mem_cons_of_mem _ hp)

theorem contains_of_mem_declarations {p : NodeId × NodeId} (hp : p ∈ declarations m.members) :
    (memberGraph m.members).contains p.2 = true :=
  (links_memberGraph.nodes p.2).2 (mem_declarations.1 hp).mem_memberIds

/-- Linking what is known does not fail. -/
theorem linkKnown?_eq : m.linkKnown? = .ok m.linkKnown :=
  foldlM_addEdge_known fun _ hp => contains_of_mem_declarations hp

/-- The first of these that is no member. -/
def stranger? (m : Manifest) (ids : List NodeId) : Option NodeId :=
  ids.find? fun id => !m.parentMap.contains id

theorem stranger?_append {ids ids' : List NodeId} :
    m.stranger? (ids ++ ids') = (m.stranger? ids).or (m.stranger? ids') := List.find?_append

theorem stranger?_eq_none_iff {ids : List NodeId} :
    m.stranger? ids = none ↔ ∀ id ∈ ids, id ∈ m.memberIds := by
  unfold stranger?
  rw [List.find?_eq_none]
  simp only [Bool.not_eq_true', Bool.not_eq_false, contains_parentMap]

/-- Everything that a member declares to depend on, in order. -/
def declared (m : Manifest) : List NodeId := m.members.flatMap (·.dependencies)

theorem map_fst_declarations : (declarations m.members).map (·.1) = m.declared := by
  unfold declarations declared
  rw [List.map_flatMap]
  simp [Function.comp_def]

/-- Linking in one pass is refused at the first declared dependency that is no member. -/
theorem linkBulk_spec (m : Manifest) :
    match m.stranger? m.declared with
    | some id => m.linkBulk = .error (.unknownNode id)
    | none => m.linkBulk = .ok m.linkKnown := by
  have hknown : ∀ id, (memberGraph m.members).contains id = m.parentMap.contains id := fun id => by
    rw [Bool.eq_iff_iff, links_memberGraph.nodes, contains_parentMap]
  rw [← map_fst_declarations]
  unfold stranger? linkBulk
  rw [List.find?_map, foldlM_addEdge fun _ hp => contains_of_mem_declarations hp]
  simp only [hknown, Function.comp_def]
  cases (declarations m.members).find? fun p => !m.parentMap.contains p.1 with
  | none => rfl
  | some p => rfl

theorem linkBulk_eq_ok (hg : m.linkBulk = .ok g) : m.stranger? m.declared = none ∧ g = m.linkKnown := by
  have hspec := linkBulk_spec m
  cases hs : m.stranger? m.declared with
  | some id =>
    rw [hs, hg] at hspec
    cases hspec
  | none =>
    rw [hs, hg] at hspec
    exact ⟨rfl, by injection hspec⟩

/-! ## One member at a time -/

/-- Edges are added from the parents up to the first that neither the graph nor the manifest holds. -/
theorem attachParents_eq {isMember : NodeId → Bool} {parents : List NodeId} :
    attachParents isMember id parents g =
      (g.insertDependencies
          ((parents.takeWhile fun p => g.contains p || isMember p).map (·, id)),
        match parents.find? fun p => !(g.contains p || isMember p) with
        | some p => .error (.unknownNode p)
        | none => .ok ()) := by
  induction parents generalizing g with
  | nil => rfl
  | cons p rest ih =>
    rw [attachParents]
    cases hp : g.contains p with
    | true =>
      rw [if_pos rfl, ih]
      simp only [Graph.contains_insertEdge]
      simp [hp, Graph.insertDependencies, Graph.insertEdges]
    | false =>
      have hskip : g.insertEdge p id .dependency = g := Graph.insertEdge_of_unknown (by simp [hp])
      cases hm : isMember p with
      | true => simp [hp, hm, ih, Graph.insertDependencies, Graph.insertEdges, hskip]
      | false => simp [hp, hm, Graph.insertDependencies, Graph.insertEdges]

theorem attachChildren_eq {children : List NodeId} :
    attachChildren id children g = g.insertDependencies (children.map (id, ·)) := by
  unfold attachChildren Graph.insertDependencies Graph.insertEdges
  rw [List.foldl_map]

theorem mem_map_parentsOf : (u, v) ∈ (m.parentsOf id).map (·, id) ↔ v = id ∧ u ∈ m.parentsOf v := by
  simp only [List.mem_map, Prod.mk.injEq]
  constructor
  · rintro ⟨p, hp, rfl, rfl⟩; exact ⟨rfl, hp⟩
  · rintro ⟨rfl, hp⟩; exact ⟨u, hp, rfl, rfl⟩

theorem mem_map_childrenOf : (u, v) ∈ (m.childrenOf id).map (id, ·) ↔ u = id ∧ u ∈ m.parentsOf v := by
  simp only [List.mem_map, Prod.mk.injEq, mem_childrenOf]
  constructor
  · rintro ⟨c, hc, rfl, rfl⟩; exact ⟨rfl, hc⟩
  · rintro ⟨rfl, hc⟩; exact ⟨v, hc, rfl, rfl⟩

/-- The graph with `id` entered anew: with an edge from each of its parents and to each of its children
that are there, and no other edge that touches it. -/
def enter (m : Manifest) (id : NodeId) (g : Graph) : Graph :=
  (((g.eraseNode id).insertNode id).insertDependencies ((m.parentsOf id).map (·, id))).insertDependencies
    ((m.childrenOf id).map (id, ·))

/-- The edge that the manifest asks for between two identities, if a graph holds both. -/
def wanted? (m : Manifest) (g : Graph) (u v : NodeId) : Option EdgeKind :=
  if g.contains u && g.contains v && (m.parentsOf v).contains u then some .dependency else none

theorem wanted?_eq_some {kind : EdgeKind} :
    m.wanted? g u v = some kind ↔
      kind = .dependency ∧ g.contains u = true ∧ g.contains v = true ∧ u ∈ m.parentsOf v := by
  unfold wanted?
  split
  · rename_i h
    simp only [Bool.and_eq_true, List.contains_iff_mem, and_assoc] at h
    simp [h, eq_comm]
  · rename_i h
    simp only [Bool.and_eq_true, List.contains_iff_mem, and_assoc] at h
    simp [h]

theorem contains_renewed :
    ((g.eraseNode id).insertNode id).contains u = true ↔ u = id ∨ g.contains u = true := by
  rw [Graph.contains_insertNode, Graph.contains_eraseNode]
  by_cases hu : u = id
  · simp [hu]
  · simp [hu, Ne.symm hu]

theorem contains_enter : (m.enter id g).contains u = true ↔ u = id ∨ g.contains u = true := by
  unfold enter Graph.insertDependencies
  rw [Graph.contains_insertEdges, Graph.contains_insertEdges, contains_renewed]

/-- Edges that touch `id` are those that the manifest asks for, all others are as they were. -/
theorem kind?_enter :
    (m.enter id g).kind? u v =
      if u = id ∨ v = id then m.wanted? (m.enter id g) u v else g.kind? u v := by
  have hin : ∀ w, (m.enter id g).contains w = ((g.eraseNode id).insertNode id).contains w := fun w => by
    unfold enter Graph.insertDependencies
    rw [Graph.contains_insertEdges, Graph.contains_insertEdges]
  unfold wanted?
  simp only [hin]
  unfold enter Graph.insertDependencies
  simp only [Graph.kind?_insertEdges, Graph.contains_insertEdges, mem_map_parentsOf,
    mem_map_childrenOf, Graph.kind?_insertNode, Graph.kind?_eraseNode]
  -- an edge that touches `id` was erased, and is listed on one side or on both
  by_cases hu : u = id
  · subst hu
    by_cases hv : v = u
    · simp [hv]
    · simp [hv, and_comm]
  · by_cases hv : v = id
    · simp [hu, hv, and_comm]
    · simp [hu, hv, Ne.symm hu, Ne.symm hv]

/-- The first parent of `id` that neither the graph nor the manifest holds. -/
def unmet? (m : Manifest) (g : Graph) (id : NodeId) : Option NodeId :=
  (m.parentsOf id).find? fun p => !(g.contains p || m.parentMap.contains p)

/-- The graph with `id` entered anew, with an edge from each of these parents that is there and no other
edge that touches it. -/
def enterBelow (parents : List NodeId) (id : NodeId) (g : Graph) : Graph :=
  ((g.eraseNode id).insertNode id).insertDependencies (parents.map (·, id))

/-- A member is entered anew. If one of its parents cannot be met, this ends at the first such. -/
theorem attach_eq (hid : id ∈ m.memberIds) :
    attach m.parentMap m.childMap id g =
      match m.unmet? g id with
      | some p =>
        (enterBelow ((m.parentsOf id).takeWhile fun q => g.contains q || m.parentMap.contains q) id g,
          .error (.unknownNode p))
      | none => (m.enter id g, .ok ()) := by
  have hmet : ∀ p, (((g.eraseNode id).insertNode id).contains p || m.parentMap.contains p) =
      (g.contains p || m.parentMap.contains p) := fun p => by
    rw [Bool.eq_iff_iff, Bool.or_eq_true, Bool.or_eq_true, contains_renewed]
    by_cases hp : p = id
    · simp [hp, contains_parentMap.2 hid]
    · simp [hp]
  unfold attach unmet?
  rw [show m.parentMap.getD id [] = m.parentsOf id from rfl,
    show m.childMap.getD id [] = m.childrenOf id from rfl, attachParents_eq]
  simp only [hmet]
  cases hf : (m.parentsOf id).find? fun p => !(g.contains p || m.parentMap.contains p) with
  | some p => rfl
  | none =>
    have htake : (m.parentsOf id).takeWhile (fun p => g.contains p || m.parentMap.contains p) =
        m.parentsOf id := by
      rw [List.takeWhile_eq_self_iff]
      intro p hp
      have hp := List.find?_eq_none.1 hf p hp
      rwa [Bool.not_eq_true', Bool.not_eq_false] at hp
    simp only [htake, attachChildren_eq]
    rfl

/-- A member is entered anew, unless one of its parents cannot be met. -/
theorem attach_spec (hid : id ∈ m.memberIds) :
    match m.unmet? g id with
    | some p => (attach m.parentMap m.childMap id g).2 = .error (.unknownNode p)
    | none => attach m.parentMap m.childMap id g = (m.enter id g, .ok ()) := by
  rw [attach_eq hid]
  cases m.unmet? g id <;> rfl

/-- A graph of these members, with the dependencies between them that count. -/
def Attached (m : Manifest) (done : List NodeId) (g : Graph) : Prop :=
  Graph.Links g (· ∈ done) fun u v => u ∈ done ∧ v ∈ done ∧ u ∈ m.parentsOf v

variable {done : List NodeId}

/-- A member that is entered anew gets its edges to all that are there, itself included. -/
theorem Attached.enter (hg : Attached m done g) : Attached m (id :: done) (m.enter id g) := by
  refine ⟨fun u => ?_, fun u v kind => ?_⟩
  · rw [contains_enter, hg.nodes, List.mem_cons]
  · rw [kind?_enter]
    split
    · rw [wanted?_eq_some, contains_enter, contains_enter, hg.nodes, hg.nodes, List.mem_cons,
        List.mem_cons]
    · rename_i htouch
      rw [not_or] at htouch
      rw [hg.edges]
      simp [htouch]

theorem Attached.unmet? (hg : Attached m done g) (hdone : ∀ u ∈ done, u ∈ m.memberIds) :
    m.unmet? g id = m.stranger? (m.parentsOf id) := by
  unfold Manifest.unmet? stranger?
  congr 1
  funext p
  cases hp : g.contains p with
  | false => rfl
  | true => rw [Bool.true_or, contains_parentMap.2 (hdone p ((hg.nodes p).1 hp))]

theorem Attached.attach (hg : Attached m done g) (hdone : ∀ u ∈ done, u ∈ m.memberIds)
    (hid : id ∈ m.memberIds) :
    match m.stranger? (m.parentsOf id) with
    | some p => (attach m.parentMap m.childMap id g).2 = .error (.unknownNode p)
    | none => ∃ g', attach m.parentMap m.childMap id g = (g', .ok ()) ∧ Attached m (id :: done) g' := by
  have hattach := attach_spec (g := g) hid
  rw [hg.unmet? hdone] at hattach
  split at hattach
  · exact hattach
  · exact ⟨m.enter id g, hattach, hg.enter⟩

/-- One step of linking member by member. -/
def attachMember (m : Manifest) (g : Graph) (member : Member) : Except GraphError Graph :=
  match attach m.parentMap m.childMap member.id g with
  | (g, .ok ()) => .ok g
  | (_, .error e) => .error e

theorem linkIncremental_eq : m.linkIncremental = m.members.foldlM m.attachMember ∅ := rfl

theorem Attached.attachMember {member : Member} (hg : Attached m done g)
    (hdone : ∀ u ∈ done, u ∈ m.memberIds) (hmem : member ∈ m.members) :
    match m.stranger? (m.parentsOf member.id) with
    | some p => m.attachMember g member = .error (.unknownNode p)
    | none => ∃ g', m.attachMember g member = .ok g' ∧ Attached m (member.id :: done) g' := by
  have hattach := hg.attach hdone (List.mem_map_of_mem hmem)
  unfold Manifest.attachMember
  split at hattach
  · generalize Manifest.attach m.parentMap m.childMap member.id g = outcome at hattach ⊢
    obtain ⟨g', result⟩ := outcome
    subst hattach
    rfl
  · obtain ⟨g', heq, hg'⟩ := hattach
    exact ⟨g', by rw [heq], hg'⟩

/-- Everything that counts as a dependency of a member, in order. -/
def counted (m : Manifest) (members : List Member) : List NodeId :=
  members.flatMap fun member => m.parentsOf member.id

theorem counted_cons {member : Member} {rest : List Member} :
    m.counted (member :: rest) = m.parentsOf member.id ++ m.counted rest := List.flatMap_cons

theorem Attached.foldlM {rest : List Member} (hg : Attached m done g)
    (hdone : ∀ u ∈ done, u ∈ m.memberIds) (hrest : ∀ member ∈ rest, member ∈ m.members) :
    match m.stranger? (m.counted rest) with
    | some p => rest.foldlM m.attachMember g = .error (.unknownNode p)
    | none => ∃ g' done', rest.foldlM m.attachMember g = .ok g' ∧ Attached m done' g' ∧
        ∀ u, u ∈ done' ↔ u ∈ done ∨ u ∈ rest.map (·.id) := by
  induction rest generalizing g done with
  | nil => exact ⟨g, done, rfl, hg, by simp⟩
  | cons member rest ih =>
    have hmem := hrest member List.mem_cons_self
    have hstep := hg.attachMember hdone hmem
    rw [List.foldlM_cons, counted_cons, stranger?_append]
    cases hf : m.stranger? (m.parentsOf member.id) with
    | some p =>
      rw [hf] at hstep
      rw [hstep]
      rfl
    | none =>
      rw [hf] at hstep
      obtain ⟨g', heq, hg'⟩ := hstep
      have hdone' : ∀ u ∈ member.id :: done, u ∈ m.memberIds := by
        intro u hu
        rcases List.mem_cons.1 hu with rfl | hu
        · exact List.mem_map_of_mem hmem
        · exact hdone u hu
      have htail := ih hg' hdone' fun x hx => hrest x (List.mem_cons_of_mem _ hx)
      rw [heq, Option.none_or]
      cases hf' : m.stranger? (m.counted rest) with
      | some p => rw [hf'] at htail; exact htail
      | none =>
        rw [hf'] at htail
        obtain ⟨g'', done', heq', hg'', hdone''⟩ := htail
        refine ⟨g'', done', heq', hg'', fun u => ?_⟩
        rw [hdone'', List.mem_cons, List.map_cons, List.mem_cons]
        rw [or_comm (a := u = member.id), or_assoc]

theorem mem_counted : u ∈ m.counted m.members ↔ ∃ v, u ∈ m.parentsOf v := by
  unfold counted
  rw [List.mem_flatMap]
  constructor
  · rintro ⟨member, _, hu⟩; exact ⟨member.id, hu⟩
  · rintro ⟨v, hu⟩
    obtain ⟨member, hmem, rfl, _⟩ := declares_of_mem_parentsOf hu
    exact ⟨member, hmem, hu⟩

theorem mem_declared : u ∈ m.declared ↔ ∃ v, m.Declares u v := by
  unfold declared
  rw [List.mem_flatMap]
  constructor
  · rintro ⟨member, hmem, hu⟩; exact ⟨member.id, member, hmem, rfl, hu⟩
  · rintro ⟨_, member, hmem, rfl, hu⟩; exact ⟨member, hmem, hu⟩

/-- Linking member by member is refused at the first dependency that counts and is no member. -/
theorem linkIncremental_spec (m : Manifest) :
    match m.stranger? (m.counted m.members) with
    | some id => m.linkIncremental = .error (.unknownNode id)
    | none => ∃ g, m.linkIncremental = .ok g ∧
        Graph.Links g (· ∈ m.memberIds) fun u v => u ∈ m.parentsOf v := by
  have hempty : Attached m [] ∅ := ⟨fun u => by simp, fun u v kind => by simp⟩
  have hfold := hempty.foldlM (fun u hu => absurd hu List.not_mem_nil)
    fun member (hmem : member ∈ m.members) => hmem
  rw [linkIncremental_eq]
  cases hf : m.stranger? (m.counted m.members) with
  | some id => rw [hf] at hfold; exact hfold
  | none =>
    rw [hf] at hfold
    obtain ⟨g, done, heq, hg, hdone⟩ := hfold
    have hids : ∀ u, u ∈ done ↔ u ∈ m.memberIds := fun u => by
      rw [hdone, or_iff_right List.not_mem_nil, memberIds]
    refine ⟨g, heq, hg.congr hids fun u v => ?_⟩
    rw [hids, hids]
    constructor
    · exact fun hd => hd.2.2
    · exact fun hu => ⟨stranger?_eq_none_iff.1 hf u (mem_counted.2 ⟨v, hu⟩),
        (declares_of_mem_parentsOf hu).mem_memberIds, hu⟩

/-! ## Agreement -/

/-- Where no two members share an identity, everything that is declared counts. -/
theorem counts_of_nodup (h : m.memberIds.Nodup) :
    m.stranger? m.declared = m.stranger? (m.counted m.members) ∧
      ∀ u v, m.Declares u v → u ∈ m.parentsOf v := by
  have hparents : ∀ member ∈ m.members, m.parentsOf member.id = member.dependencies.eraseDups :=
    fun _ hmem => parentsOf_of_nodup h hmem
  constructor
  · unfold stranger? declared counted
    rw [List.flatMap_congr hparents, List.find?_flatMap, List.find?_flatMap]
    simp only [find?_eraseDups]
  · rintro u v ⟨member, hmem, rfl, hu⟩
    rw [hparents member hmem]
    exact List.mem_eraseDups.2 hu

theorem linkKnown_eq_iff (hd : m.stranger? m.declared = none)
    (hg : Graph.Links g (· ∈ m.memberIds) fun u v => u ∈ m.parentsOf v) :
    m.linkKnown = g ↔ ∀ u v, m.Declares u v → u ∈ m.parentsOf v := by
  have hmember : ∀ u v, m.Declares u v → u ∈ m.memberIds := fun u v h =>
    stranger?_eq_none_iff.1 hd u (mem_declared.2 ⟨v, h⟩)
  rw [links_linkKnown.eq_iff hg]
  constructor
  · intro h u v hdecl
    exact (h u v).1 ⟨hdecl, hmember u v hdecl⟩
  · intro h u v
    refine ⟨fun hdecl => h u v hdecl.1, fun hu => ?_⟩
    have hdecl := declares_of_mem_parentsOf hu
    exact ⟨hdecl, hmember u v hdecl⟩

/-- What counts was declared: where all that is declared is a member, so is all that counts. -/
theorem stranger?_counted (hd : m.stranger? m.declared = none) :
    m.stranger? (m.counted m.members) = none := by
  rw [stranger?_eq_none_iff] at hd ⊢
  intro u hu
  obtain ⟨v, hv⟩ := mem_counted.1 hu
  exact hd u (mem_declared.2 ⟨v, declares_of_mem_parentsOf hv⟩)

theorem linkBulk_eq_iff :
    m.linkBulk = m.linkIncremental ↔
      m.stranger? m.declared = m.stranger? (m.counted m.members) ∧
        (m.stranger? m.declared = none → ∀ u v, m.Declares u v → u ∈ m.parentsOf v) := by
  have hbulk := linkBulk_spec m
  have hincr := linkIncremental_spec m
  cases hd : m.stranger? m.declared with
  | some a =>
    rw [hd] at hbulk
    cases hc : m.stranger? (m.counted m.members) with
    | some b =>
      rw [hc] at hincr
      rw [hbulk, hincr]
      simp
    | none =>
      rw [hc] at hincr
      obtain ⟨g, hg, _⟩ := hincr
      rw [hbulk, hg]
      simp
  | none =>
    rw [hd] at hbulk
    rw [stranger?_counted hd] at hincr ⊢
    obtain ⟨g, hg, hlinks⟩ := hincr
    rw [hbulk, hg, Except.ok.injEq, linkKnown_eq_iff hd hlinks]
    simp

/-- Where no two members share an identity, both ways to link give the same. -/
theorem linkBulk_eq_of_nodup (h : m.memberIds.Nodup) : m.linkBulk = m.linkIncremental := by
  obtain ⟨hfirst, hall⟩ := counts_of_nodup h
  exact linkBulk_eq_iff.2 ⟨hfirst, fun _ => hall⟩

/-- **When the two ways to link agree.** They give equal graphs, or the same error, exactly if the
first dependency that is no member is the same for all that is declared and for what counts, and,
where there is none, all that is declared counts. So they agree where no two members share an
identity. -/
theorem linkBulk_eq_linkIncremental_iff (m : Manifest) :
    (m.linkBulk = m.linkIncremental ↔
      m.stranger? m.declared = m.stranger? (m.counted m.members) ∧
        (m.stranger? m.declared = none → ∀ u v, m.Declares u v → u ∈ m.parentsOf v)) ∧
    (m.memberIds.Nodup → m.linkBulk = m.linkIncremental) := by
  refine ⟨linkBulk_eq_iff, fun hnodup => linkBulk_eq_iff.2 ?_⟩
  obtain ⟨hfirst, hall⟩ := counts_of_nodup hnodup
  exact ⟨hfirst, fun _ => hall⟩

/-- A model and an exposure of one identity: what the model depends on does not count. -/
def sharedIdentity : Manifest where
  nodes := .ofList
    [("a", { uniqueId := "a", name := "a", resourceType := .model, packageName := "p" }),
      ("b", { uniqueId := "b", name := "b", resourceType := .model, packageName := "p"
              dependsOn := { nodes := ["a"] } })] compare
  exposures := .ofList
    [("b", { uniqueId := "b", name := "b", resourceType := .exposure, packageName := "p" })] compare

theorem linkBulk_ne_linkIncremental : sharedIdentity.linkBulk ≠ sharedIdentity.linkIncremental := by
  decide +kernel

end Lineage.Manifest
