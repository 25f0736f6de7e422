import Lineage.Proofs.Manifest.Edits
import Lineage.Proofs.Manifest.Validate

/-!
# Nodes that a reference cannot tell apart

Validation groups nodes by package, name and version, a lookup picks nodes by them. Where records stand under
their own identities, the group of a key holds the nodes among which a lookup of the key decides
(`answering_eq_idsOf`). So a lookup with a package and a version is ambiguous exactly where validation reports
the key, and between the nodes that it reports (`resolveRef_ambiguous_iff_reported`).
-/

namespace Lineage

/-- What a reference tells the node apart by. -/
def Node.refKey (n : Node) : Manifest.RefKey := ⟨n.packageName, n.name, n.versionText⟩

namespace Manifest

open Diagnostic

/-! ## Groups by key -/

section Groups

variable {κ : Type} [DecidableEq κ] {order : κ → κ → Ordering} [Std.TransCmp order] [Std.LawfulEqCmp order]
  {entries : List (κ × NodeId)} {key : κ} {ids : List NodeId}

/-- A key is shared if several entries have it. -/
theorem mem_sharedKeys :
    (key, ids) ∈ sharedKeys order entries ↔ ids = idsOf entries key ∧ 1 < ids.length := by
  have hgroup := getD_foldl_group entries (∅ : Std.ExtTreeMap κ (List NodeId) order) key
  rw [Std.ExtTreeMap.getD_empty, List.nil_append, Std.ExtTreeMap.getD_eq_getD_getElem?] at hgroup
  unfold sharedKeys
  rw [List.mem_filter, Std.ExtTreeMap.mem_toList_iff_getElem?_eq_some, decide_eq_true_iff, ← hgroup]
  generalize entries.foldl _ _ = groups
  refine and_congr_left fun hseveral => ?_
  constructor
  · intro hids
    rw [hids]
    rfl
  · rintro rfl
    cases hids : groups[key]? with
    | some ids => rfl
    | none =>
      rw [hids] at hseveral
      exact absurd hseveral (by simp)

end Groups

/-! ## Nodes by the keys of references -/

instance : Std.LawfulEqCmp RefKey.order where
  eq_of_compare {a b} h := by
    unfold RefKey.order at h
    simp only [compareLex_eq_eq, compareOn, compare_eq_iff_eq] at h
    obtain ⟨hpackage, hname, hversion⟩ := h
    cases a
    simp_all

variable {m : Manifest} {c : Config} {g : Graph} {key : RefKey} {ids : List NodeId} {d : Diagnostic}
  {name p v : String} {scope : Scope}

/-- The targets of references, each under its key. -/
def refEntries (m : Manifest) : List (RefKey × NodeId) :=
  (m.nodes.toList.filter fun (_, n) => n.resourceType.isRefable).map fun (id, n) => (n.refKey, id)

theorem mem_duplicateRefs : (key, ids) ∈ m.duplicateRefs ↔ ids = idsOf m.refEntries key ∧ 1 < ids.length :=
  mem_sharedKeys

theorem idsOf_refEntries :
    idsOf m.refEntries key =
      (m.nodes.toList.filter fun (_, n) => n.refKey == key && n.resourceType.isRefable).map (·.1) := by
  unfold idsOf refEntries
  rw [List.filter_map, List.map_map, List.filter_filter]
  rfl

theorem pairwise_idsOf : (idsOf m.refEntries key).Pairwise (· ≤ ·) := by
  rw [idsOf_refEntries]
  have hkeys : m.nodes.toList.Pairwise fun a b => a.1 ≤ b.1 :=
    Std.ExtTreeMap.ordered_keys_toList.imp fun h => (compare_lt_iff_lt.1 h).le
  exact (hkeys.filter _).map _ fun _ _ h => h

theorem mem_idsOf_refEntries {id : NodeId} :
    id ∈ idsOf m.refEntries key ↔
      ∃ n, m.nodes[id]? = some n ∧ n.resourceType.isRefable = true ∧ n.refKey = key := by
  rw [idsOf_refEntries]
  simp only [List.mem_map, List.mem_filter, Prod.exists, Std.ExtTreeMap.mem_toList_iff_getElem?_eq_some,
    Bool.and_eq_true, beq_iff_eq]
  constructor
  · rintro ⟨_, n, ⟨hn, hkey, hrefable⟩, rfl⟩
    exact ⟨n, hn, hrefable, hkey⟩
  · rintro ⟨n, hn, hrefable, hkey⟩
    exact ⟨id, n, ⟨hn, hkey, hrefable⟩, rfl⟩

/-- The nodes that a lookup finds in a package are those of the key. -/
theorem answering_eq_idsOf (h : Keyed Node.uniqueId (fun _ => True) m.nodes) :
    ((m.answering name (some v)).filter (·.packageName == p)).map (·.uniqueId) =
      idsOf m.refEntries ⟨p, name, some (Version.normalize v)⟩ := by
  rw [idsOf_refEntries, answering, values_eq, List.filter_filter, List.filter_map, List.map_map]
  have hsame : ∀ entry ∈ m.nodes.toList,
      (((fun n : Node => n.packageName == p && decide (n.Answers name (some v))) ∘ Prod.snd) entry) =
        (entry.2.refKey == ⟨p, name, some (Version.normalize v)⟩ && entry.2.resourceType.isRefable) := by
    rintro ⟨_, n⟩ -
    rw [Bool.eq_iff_iff]
    simp [Node.Answers, Node.refKey]
    tauto
  rw [List.filter_congr hsame]
  refine List.map_congr_left fun entry hmem => ?_
  exact (h entry.1 entry.2 (Std.ExtTreeMap.mem_toList_iff_getElem?_eq_some.1 (List.mem_of_mem_filter hmem))).1

/-- A lookup is ambiguous if its key is shared. -/
theorem resolveRef_eq_ambiguous_iff (h : Keyed Node.uniqueId (fun _ => True) m.nodes) :
    m.resolveRef scope name (some p) (some v) = .ambiguous ids ↔
      (⟨p, name, some (Version.normalize v)⟩, ids) ∈ m.duplicateRefs := by
  have hpicked := picked_pick ((ladder scope (some p) (m.contenders name (some v))).map Node.candidate)
  rw [List.map_map] at hpicked
  have hids : (ladder scope (some p) (m.contenders name (some v))).map (Candidate.id ∘ Node.candidate) =
      idsOf m.refEntries ⟨p, name, some (Version.normalize v)⟩ := answering_eq_idsOf h
  rw [hids] at hpicked
  rw [resolveRef_eq, hpicked.ambiguous, mem_duplicateRefs]
  constructor
  · rintro ⟨hseveral, hperm, hsorted⟩
    obtain rfl := hperm.eq_of_pairwise' hsorted pairwise_idsOf
    exact ⟨rfl, hseveral⟩
  · rintro ⟨rfl, hseveral⟩
    exact ⟨hseveral, .refl _, pairwise_idsOf⟩

/-! ## The findings -/

/-- A finding that these nodes, and no others, have this key. -/
structure ReportsShared (m : Manifest) (key : RefKey) (ids : List NodeId) (d : Diagnostic) : Prop where
  code : d.code = .refDuplicateInPackage
  message : d.message = "ref target " ++ key.toText ++ " is defined by several nodes: " ++ ", ".intercalate ids
  related : d.related = ids
  /-- Two keys can have one text, so the nodes decide which of them is meant. -/
  nodes : ∀ id, id ∈ ids ↔ ∃ n, m.nodes[id]? = some n ∧ n.resourceType.isRefable = true ∧ n.refKey = key

theorem withCode_refDuplicate :
    withCode .refDuplicateInPackage (m.findings c g) = m.duplicateRefFindings c := by
  rw [withCode_findings]
  simp [checks, coded_duplicateRefFindings.withCode_eq_self]

/-- Each shared key is reported, with its nodes. -/
theorem exists_reportsShared_iff :
    (∃ d ∈ withCode .refDuplicateInPackage (m.findings c g), m.ReportsShared key ids d) ↔
      (key, ids) ∈ m.duplicateRefs := by
  rw [withCode_refDuplicate]
  constructor
  · rintro ⟨d, hd, -, -, hrelated, hnodes⟩
    obtain ⟨⟨other, _⟩, hshared, rfl⟩ := List.mem_map.1 hd
    obtain rfl := hrelated
    -- The first of the nodes has the key of the group and the key that is reported.
    obtain ⟨rfl, hseveral⟩ := mem_duplicateRefs.1 hshared
    obtain ⟨id, hid⟩ := List.exists_mem_of_length_pos (Nat.zero_lt_of_lt hseveral)
    obtain ⟨n, hn, -, hother⟩ := mem_idsOf_refEntries.1 hid
    obtain ⟨k, hk, -, hkey⟩ := (hnodes id).1 hid
    rw [hn] at hk
    cases hk
    rwa [← hkey, hother]
  · intro hshared
    obtain ⟨hids, -⟩ := mem_duplicateRefs.1 hshared
    exact ⟨_, List.mem_map.2 ⟨_, hshared, rfl⟩, rfl, rfl, rfl, fun id => hids ▸ mem_idsOf_refEntries⟩

/-- **Ambiguous references are reported.** In a manifest whose nodes stand under their own identities, a lookup
with a package and a version is ambiguous, whoever asks, exactly if the report has a finding about this
package, name and version, and the nodes are those of the finding. -/
theorem resolveRef_ambiguous_iff_reported (m : Manifest) (c : Config) (timestamp : String)
    (h : Keyed Node.uniqueId (fun _ => True) m.nodes) :
    ∃ r, m.validate? c timestamp = .ok r ∧ ∀ scope name p v ids,
      m.resolveRef scope name (some p) (some v) = .ambiguous ids ↔
        ∃ d ∈ r.diagnostics, m.ReportsShared ⟨p, name, some (Version.normalize v)⟩ ids d := by
  refine ⟨m.validate c timestamp, validate?_eq, fun scope name p v ids => ?_⟩
  rw [diagnostics_validate, resolveRef_eq_ambiguous_iff h, ← exists_reportsShared_iff (c := c) (g := m.linkKnown)]
  constructor
  · rintro ⟨d, hd, hreports⟩
    exact ⟨d, (mem_withCode.1 hd).1, hreports⟩
  · rintro ⟨d, hd, hreports⟩
    exact ⟨d, mem_withCode.2 ⟨hd, hreports.code⟩, hreports⟩

/-- ` 2` and `2.0` are one version, so a lookup of `02` is ambiguous between their nodes and they are reported. -/
theorem resolveRef_ambiguous_iff_reported_spellings :
    let m := ofVersions [("a", " 2"), ("b", "2.0"), ("c", "3")]
    Keyed Node.uniqueId (fun _ => True) m.nodes ∧ ∃ r, m.validate? {} "now" = .ok r ∧
      (∀ scope, m.resolveRef scope "dim" (some "p") (some "02") = .ambiguous ["a", "b"]) ∧
      ∃ d ∈ r.diagnostics, m.ReportsShared ⟨"p", "dim", some "2"⟩ ["a", "b"] d := by
  intro m
  have hkeyed : Keyed Node.uniqueId (fun _ => True) m.nodes := by
    have hall : ∀ entry ∈ m.nodes.toList, entry.2.uniqueId = entry.1 := by decide +kernel
    exact fun id n hn => ⟨hall (id, n) (Std.ExtTreeMap.mem_toList_iff_getElem?_eq_some.2 hn), trivial⟩
  have hshared : (⟨"p", "dim", some "2"⟩, ["a", "b"]) ∈ m.duplicateRefs := by decide +kernel
  have hversion : Version.normalize "02" = "2" := by decide +kernel
  obtain ⟨r, hr, hreported⟩ := resolveRef_ambiguous_iff_reported m {} "now" hkeyed
  have hambiguous : ∀ scope, m.resolveRef scope "dim" (some "p") (some "02") = .ambiguous ["a", "b"] := fun scope =>
    (resolveRef_eq_ambiguous_iff hkeyed).2 (hversion ▸ hshared)
  obtain ⟨d, hd, hreports⟩ := (hreported ⟨"p", "p"⟩ "dim" "p" "02" ["a", "b"]).1 (hambiguous ⟨"p", "p"⟩)
  exact ⟨hkeyed, r, hr, hambiguous, d, hd, hversion ▸ hreports⟩

end Manifest

end Lineage
