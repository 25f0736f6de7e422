import Lineage.Graph.Lemmas
import Lineage.Manifest.Maps
import Mathlib.Data.List.Induction
import Mathlib.Data.List.Nodup
import Mathlib.Data.String.Basic

/-!
# Parents and children

The parent map holds the dependencies of the last member of each identity (`getElem?_parentMap`), and
the child map is its inverse (`mem_childrenOf`, `childMap_inverts_parentMap`). A dependency that an
earlier member of the same identity declares is in neither; where no two collections hold one identity,
there is no such member (`nodup_memberIds`).
-/

namespace Lineage.Manifest

variable {m : Manifest} {member : Member} {id child parent u v : NodeId}

/-! ## Members -/

/-- The identities of the members, in order; an identity that two collections hold comes twice. -/
def memberIds (m : Manifest) : List NodeId := m.members.map (·.id)

/-- The parents that count for `id`. -/
def parentsOf (m : Manifest) (id : NodeId) : List NodeId := m.parentMap.getD id []

def childrenOf (m : Manifest) (id : NodeId) : List NodeId := m.childMap.getD id []

/-- Some member of the identity `v` declares to depend on `u`. -/
def Declares (m : Manifest) (u v : NodeId) : Prop :=
  ∃ member ∈ m.members, member.id = v ∧ u ∈ member.dependencies

/-- Nodes of one package, each with its identity, its type and its dependencies. -/
def ofNodes (nodes : List (NodeId × ResourceType × List NodeId)) : Manifest where
  nodes := .ofList (nodes.map fun (id, type, parents) =>
    (id, { uniqueId := id, name := id, resourceType := type, packageName := "p"
           dependsOn := { nodes := parents } })) compare

/-- The members are the entries of all collections that have a type with dependencies. -/
theorem mem_members :
    member ∈ m.members ↔ member.type.hasDependencies = true ∧
      ((∃ n, m.nodes[member.id]? = some n ∧
          member.type = n.resourceType ∧ member.dependencies = n.dependsOn.nodes) ∨
        (member.id ∈ m.sources ∧ member.type = .source ∧ member.dependencies = []) ∨
        ∃ col ∈ m.resourceCollections, ∃ r, col[member.id]? = some r ∧
          member.type = r.resourceType ∧ member.dependencies = r.dependsOn.nodes) := by
  obtain ⟨id, type, dependencies⟩ := member
  unfold members nodeMembers sourceMembers resourceMembers
  simp only [List.mem_filter, List.mem_append, List.mem_flatMap, List.mem_map, Prod.exists,
    Std.ExtTreeMap.mem_toList_iff_getElem?_eq_some, Std.ExtTreeMap.mem_keys, Member.mk.injEq]
  rw [and_comm, or_assoc]
  refine and_congr_right fun _ => or_congr ?_ (or_congr ?_ ?_)
  · constructor
    · rintro ⟨_, n, hn, rfl, rfl, rfl⟩; exact ⟨n, hn, rfl, rfl⟩
    · rintro ⟨n, hn, rfl, rfl⟩; exact ⟨id, n, hn, rfl, rfl, rfl⟩
  · constructor
    · rintro ⟨_, hs, rfl, rfl, rfl⟩; exact ⟨hs, rfl, rfl⟩
    · rintro ⟨hs, rfl, rfl⟩; exact ⟨id, hs, rfl, rfl, rfl⟩
  · refine exists_congr fun col => and_congr_right fun _ => ?_
    constructor
    · rintro ⟨_, r, hr, rfl, rfl, rfl⟩; exact ⟨r, hr, rfl, rfl⟩
    · rintro ⟨r, hr, rfl, rfl⟩; exact ⟨id, r, hr, rfl, rfl, rfl⟩

/-- The identities of the entries of these collections, collection by collection. -/
def entryIds (m : Manifest) : List NodeId :=
  m.nodes.keys ++ m.sources.keys ++ m.resourceCollections.flatMap (·.keys)

theorem memberIds_sublist_entryIds : m.memberIds.Sublist m.entryIds := by
  have hnodes : (nodeMembers m.nodes).map (·.id) = m.nodes.keys := by
    unfold nodeMembers
    rw [List.map_map, ← Std.ExtTreeMap.map_fst_toList_eq_keys]
    rfl
  have hsources : (sourceMembers m.sources).map (·.id) = m.sources.keys := by
    unfold sourceMembers
    rw [List.map_map]
    exact List.map_id _
  have hresources : ∀ col, (resourceMembers col).map (·.id) = col.keys := by
    intro col
    unfold resourceMembers
    rw [List.map_map, ← Std.ExtTreeMap.map_fst_toList_eq_keys]
    rfl
  have hall : (nodeMembers m.nodes ++ sourceMembers m.sources
      ++ m.resourceCollections.flatMap resourceMembers).map (·.id) = m.entryIds := by
    rw [List.map_append, List.map_append, hnodes, hsources, List.map_flatMap]
    simp only [hresources, entryIds]
  rw [← hall]
  exact List.filter_sublist.map _

/-- Where no two of these collections hold an identity, no two members share one. -/
theorem nodup_memberIds (h : m.entryIds.Nodup) : m.memberIds.Nodup :=
  h.sublist memberIds_sublist_entryIds

/-! ## Lists by identity -/

/-- There is an entry for `key`, and it lists `id`. -/
def Lists (col : Collection (List NodeId)) (key id : NodeId) : Prop := ∃ l, col[key]? = some l ∧ id ∈ l

section
variable {col : Collection (List NodeId)} {key : NodeId} {l : List NodeId}

theorem getD_of_getElem? (h : col[key]? = some l) : col.getD key [] = l := by
  rw [Std.ExtTreeMap.getD_eq_getD_getElem?, h]
  rfl

theorem lists_iff_mem_getD : Lists col key id ↔ id ∈ col.getD key [] := by
  unfold Lists
  rw [Std.ExtTreeMap.getD_eq_getD_getElem?]
  cases col[key]? <;> simp

end

/-! ## The parent map -/

theorem eraseDups_append_singleton {l : List NodeId} {a : NodeId} :
    (l ++ [a]).eraseDups = if a ∈ l then l.eraseDups else l.eraseDups ++ [a] := by
  rw [List.eraseDups_append, List.removeAll]
  by_cases ha : a ∈ l
  · simp [ha]
  · simp [ha, List.eraseDups_cons]

theorem nodup_eraseDups {l : List NodeId} : l.eraseDups.Nodup := by
  induction l using List.reverseRec with
  | nil => exact List.nodup_nil
  | append_singleton l a ih =>
    rw [eraseDups_append_singleton]
    split
    · exact ih
    · rename_i ha
      rw [← List.concat_eq_append]
      exact ih.concat fun h => ha (List.mem_eraseDups.1 h)

/-- Without repetitions a list keeps the order of the first occurrences. -/
theorem pairwise_idxOf_eraseDups {l : List NodeId} :
    l.eraseDups.Pairwise fun a b => l.idxOf a < l.idxOf b := by
  induction l using List.reverseRec with
  | nil => exact .nil
  | append_singleton l a ih =>
    -- what occurs in `l` is found at the same place in the longer list
    have hkeep : l.eraseDups.Pairwise fun b c => (l ++ [a]).idxOf b < (l ++ [a]).idxOf c := by
      refine ih.imp_of_mem fun {b c} hb hc hlt => ?_
      rwa [List.idxOf_append_of_mem (List.mem_eraseDups.1 hb),
        List.idxOf_append_of_mem (List.mem_eraseDups.1 hc)]
    rw [eraseDups_append_singleton]
    split
    · exact hkeep
    · rename_i ha
      refine List.pairwise_append.2 ⟨hkeep, List.pairwise_singleton _ _, fun b hb c hc => ?_⟩
      obtain rfl := List.mem_singleton.1 hc
      have hmem := List.mem_eraseDups.1 hb
      rw [List.idxOf_append_of_mem hmem, List.idxOf_append_of_notMem ha]
      exact Nat.lt_add_right _ (List.idxOf_lt_length_of_mem hmem)

/-- Repetitions do not matter for what is found first. -/
theorem find?_eraseDups {l : List NodeId} {p : NodeId → Bool} : l.eraseDups.find? p = l.find? p := by
  induction l using List.reverseRec with
  | nil => rfl
  | append_singleton l a ih =>
    rw [eraseDups_append_singleton, List.find?_append]
    split
    · rename_i ha
      rw [ih]
      cases hf : l.find? p with
      | some b => rfl
      | none => simp [List.find?_eq_none.1 hf a ha]
    · rw [List.find?_append, ih]

theorem getElem?_parentMap :
    m.parentMap[id]? =
      (m.members.reverse.find? (·.id = id)).map (·.dependencies.eraseDups) := by
  unfold parentMap
  rw [Std.ExtTreeMap.ofList_eq_insertMany_empty, Std.ExtTreeMap.getElem?_insertMany_list]
  simp only [Std.LawfulEqOrd.compare_eq_iff_eq, List.findSomeRev?_eq_findSome?_reverse,
    Std.ExtTreeMap.getElem?_empty, Option.or_none, ← List.map_reverse, List.findSome?_map]
  generalize m.members.reverse = l
  induction l with
  | nil => rfl
  | cons a rest ih =>
    by_cases ha : a.id = id
    · simp [ha]
    · simpa [ha] using ih

theorem contains_parentMap : m.parentMap.contains id = true ↔ id ∈ m.memberIds := by
  unfold parentMap memberIds
  rw [Std.ExtTreeMap.contains_ofList, List.contains_iff_mem, List.map_map]
  rfl

theorem mem_memberIds_iff : id ∈ m.memberIds ↔ id ∈ m.parentMap := by
  rw [← contains_parentMap, Std.ExtTreeMap.contains_iff_mem]

/-- Of several members of one identity the last is found. -/
theorem exists_last_of_find? (h : m.members.reverse.find? (·.id = id) = some member) :
    member.id = id ∧ ∃ before after, m.members = before ++ member :: after ∧
      ∀ later ∈ after, later.id ≠ id := by
  obtain ⟨hid, front, back, hsplit, hfront⟩ := List.find?_eq_some_iff_append.1 h
  refine ⟨by simpa using hid, back.reverse, front.reverse, ?_, fun later hlater => ?_⟩
  · rw [← List.reverse_reverse m.members, hsplit]
    simp
  · simpa using hfront later (List.mem_reverse.1 hlater)

theorem parentsOf_of_find? (h : m.members.reverse.find? (·.id = id) = some member) :
    m.parentsOf id = member.dependencies.eraseDups := by
  unfold parentsOf
  rw [Std.ExtTreeMap.getD_eq_getD_getElem?, getElem?_parentMap, h]
  rfl

/-- What counts as a parent was declared by a member. -/
theorem declares_of_mem_parentsOf (h : u ∈ m.parentsOf v) : m.Declares u v := by
  cases hf : m.members.reverse.find? (·.id = v) with
  | none =>
    unfold parentsOf at h
    rw [Std.ExtTreeMap.getD_eq_getD_getElem?, getElem?_parentMap, hf] at h
    exact absurd h List.not_mem_nil
  | some member =>
    rw [parentsOf_of_find? hf, List.mem_eraseDups] at h
    have hid := List.find?_some hf
    exact ⟨member, List.mem_reverse.1 (List.mem_of_find?_eq_some hf), by simpa using hid, h⟩

theorem Declares.mem_memberIds (h : m.Declares u v) : v ∈ m.memberIds := by
  obtain ⟨member, hmem, rfl, _⟩ := h
  exact List.mem_map_of_mem hmem

theorem nodup_parentsOf : (m.parentsOf id).Nodup := by
  cases hf : m.members.reverse.find? (·.id = id) with
  | none => simp [parentsOf, Std.ExtTreeMap.getD_eq_getD_getElem?, getElem?_parentMap, hf]
  | some member => rw [parentsOf_of_find? hf]; exact nodup_eraseDups

/-- Where no two members share an identity, all declarations count. -/
theorem parentsOf_of_nodup (h : m.memberIds.Nodup) (hmem : member ∈ m.members) :
    m.parentsOf member.id = member.dependencies.eraseDups := by
  have hsome : (m.members.reverse.find? (·.id = member.id)).isSome = true := by
    rw [List.find?_isSome]
    exact ⟨member, List.mem_reverse.2 hmem, by simp⟩
  obtain ⟨other, hf⟩ := Option.isSome_iff_exists.1 hsome
  have hid := List.find?_some hf
  have hother := List.mem_reverse.1 (List.mem_of_find?_eq_some hf)
  rw [parentsOf_of_find? hf, List.inj_on_of_nodup_map h hother hmem (by simpa using hid)]

/-! ## The child map -/

theorem getD_addChild {children : Collection (List NodeId)} {parents : List NodeId}
    (h : parents.Nodup) :
    (addChild children parents child).getD parent [] =
      if parent ∈ parents then children.getD parent [] ++ [child] else children.getD parent [] := by
  unfold addChild
  induction parents generalizing children with
  | nil => rfl
  | cons p rest ih =>
    obtain ⟨hp, hrest⟩ := List.nodup_cons.1 h
    rw [List.foldl_cons, ih hrest, Std.ExtTreeMap.getD_insert]
    simp only [Std.LawfulEqOrd.compare_eq_iff_eq]
    by_cases hpar : p = parent
    · subst hpar
      simp [hp]
    · simp [hpar, Ne.symm hpar]

/-- Each parent lists those children, in order, that list it. -/
theorem getD_foldl_addChild {children : Collection (List NodeId)}
    {entries : List (NodeId × List NodeId)} (h : ∀ e ∈ entries, e.2.Nodup) :
    (entries.foldl (fun children e => addChild children e.2 e.1) children).getD parent [] =
      children.getD parent [] ++ (entries.filter (parent ∈ ·.2)).map (·.1) := by
  induction entries generalizing children with
  | nil => simp
  | cons e rest ih =>
    rw [List.foldl_cons, ih fun e he => h e (List.mem_cons_of_mem _ he),
      getD_addChild (h e List.mem_cons_self)]
    by_cases hp : parent ∈ e.2
    · simp [hp]
    · simp [hp]

theorem childrenOf_eq :
    m.childrenOf parent = (m.parentMap.toList.filter (parent ∈ ·.2)).map (·.1) := by
  have hnodup : ∀ e ∈ m.parentMap.toList, e.2.Nodup := by
    rintro ⟨id, parents⟩ he
    rw [Std.ExtTreeMap.mem_toList_iff_getElem?_eq_some] at he
    have hids : (m.parentsOf id).Nodup := nodup_parentsOf
    rwa [parentsOf, Std.ExtTreeMap.getD_eq_getD_getElem?, he] at hids
  unfold childrenOf childMap
  rw [getD_foldl_addChild hnodup, Std.ExtTreeMap.getD_map]
  cases m.parentMap[parent]? with
  | none => rfl
  | some parents => rfl

theorem mem_addChild {children : Collection (List NodeId)} {parents : List NodeId} :
    id ∈ addChild children parents child ↔ id ∈ children ∨ id ∈ parents := by
  unfold addChild
  induction parents generalizing children with
  | nil => simp
  | cons p rest ih =>
    rw [List.foldl_cons, ih, Std.ExtTreeMap.mem_insert, Std.LawfulEqOrd.compare_eq_iff_eq, List.mem_cons,
      or_comm (a := p = id), or_assoc, eq_comm (a := p)]

theorem mem_foldl_addChild {children : Collection (List NodeId)}
    {entries : List (NodeId × List NodeId)} :
    id ∈ entries.foldl (fun children e => addChild children e.2 e.1) children ↔
      id ∈ children ∨ ∃ e ∈ entries, id ∈ e.2 := by
  induction entries generalizing children with
  | nil => simp
  | cons e rest ih =>
    rw [List.foldl_cons, ih, mem_addChild, or_assoc, List.exists_mem_cons_iff]

/-- The child map has the members and everything that counts as a parent. -/
theorem mem_childMap : id ∈ m.childMap ↔ id ∈ m.parentMap ∨ ∃ child, Lists m.parentMap child id := by
  unfold childMap Lists
  rw [mem_foldl_addChild, Std.ExtTreeMap.mem_map]
  simp only [Prod.exists, Std.ExtTreeMap.mem_toList_iff_getElem?_eq_some]

/-- Children are listed in identity order. -/
theorem pairwise_childrenOf : (m.childrenOf parent).Pairwise (· < ·) := by
  rw [childrenOf_eq, List.pairwise_map]
  exact (Std.ExtTreeMap.ordered_keys_toList.imp fun h => compare_lt_iff_lt.1 h).filter _

/-- Children are listed exactly under what counts as their parent. -/
theorem mem_childrenOf : child ∈ m.childrenOf parent ↔ parent ∈ m.parentsOf child := by
  rw [childrenOf_eq, List.mem_map]
  simp only [List.mem_filter, Prod.exists, exists_and_right, exists_eq_right, decide_eq_true_eq,
    Std.ExtTreeMap.mem_toList_iff_getElem?_eq_some]
  exact lists_iff_mem_getD

/-- **The child map is the inverse of the parent map.** The parent map has an entry for each member: the
dependencies of the last member of that identity, each once and in the order of their first declaration.
The child map lists the same pairs the other way round, in identity order, and has an entry for each
member and for each identity that occurs as a parent, be it a member or not. -/
theorem childMap_inverts_parentMap (m : Manifest) :
    (∀ id : NodeId, id ∈ m.parentMap ↔ ∃ member ∈ m.members, member.id = id) ∧
    (∀ (id : NodeId) (parents : List NodeId), m.parentMap[id]? = some parents →
      parents.Nodup ∧ ∃ before member after, m.members = before ++ member :: after ∧ member.id = id ∧
        (∀ later ∈ after, later.id ≠ id) ∧ (∀ u, u ∈ parents ↔ u ∈ member.dependencies) ∧
        parents.Pairwise fun u v => member.dependencies.idxOf u < member.dependencies.idxOf v) ∧
    (∀ a b, Lists m.parentMap a b ↔ Lists m.childMap b a) ∧
    (∀ id, id ∈ m.childMap ↔ id ∈ m.parentMap ∨ ∃ child, Lists m.parentMap child id) ∧
    ∀ (id : NodeId) (children : List NodeId), m.childMap[id]? = some children →
      children.Pairwise (· < ·) := by
  refine ⟨fun id => ?_, fun id parents h => ?_, fun a b => ?_, fun id => mem_childMap, fun id children h => ?_⟩
  · rw [← Std.ExtTreeMap.contains_iff_mem, contains_parentMap, memberIds, List.mem_map]
  · rw [getElem?_parentMap] at h
    obtain ⟨member, hfind, rfl⟩ := Option.map_eq_some_iff.1 h
    obtain ⟨hid, before, after, hsplit, hlater⟩ := exists_last_of_find? hfind
    exact ⟨nodup_eraseDups, before, member, after, hsplit, hid, hlater, fun u => List.mem_eraseDups,
      pairwise_idxOf_eraseDups⟩
  · rw [lists_iff_mem_getD, lists_iff_mem_getD]
    exact mem_childrenOf.symm
  · rw [← getD_of_getElem? h]
    exact pairwise_childrenOf

end Lineage.Manifest
