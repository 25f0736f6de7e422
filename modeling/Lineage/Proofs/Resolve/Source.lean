import Lineage.Proofs.Graph.Batches
import Lineage.Proofs.Manifest.Duplicates
import Mathlib.Data.Prod.Lex

/-!
# One source of several

Several sources can have the same names, and a lookup takes the first of them by package and identity
(`Manifest.resolveSource_spec`). Which one that is depends on who asks, unless each of their packages has one with
the least identity of all (`Manifest.contextFree_iff`). Validation goes through the same sources, but groups them
by their names, and reports the names that several have (`Manifest.exists_reportsDuplicate_iff`). So where it
reports nothing, everyone gets the same answer (`Manifest.resolveSource_first`).
-/

namespace Lineage.Manifest

open Diagnostic

variable {m : Manifest} {c : Config} {g : Graph} {scope : Scope} {s t : String} {a b : Source} {id : NodeId}
  {ids : List NodeId}

/-! ## The first source -/

/-- A source under these names stands under the identity. -/
def DefinesAt (m : Manifest) (s t : String) (id : NodeId) (a : Source) : Prop :=
  m.sources[id]? = some a ∧ a.sourceName = s ∧ a.name = t

/-- The manifest has this source, and these are its names. -/
def Defines (m : Manifest) (s t : String) (a : Source) : Prop := ∃ id, m.DefinesAt s t id a

/-- What sources are preferred by: the place of the package and then the identity. -/
def sourceKey (scope : Scope) (a : Source) : Nat ×ₗ NodeId :=
  toLex (sourcePriority scope a.packageName, a.uniqueId)

/-- No source of these names comes before this one. -/
structure First (m : Manifest) (scope : Scope) (s t : String) (a : Source) : Prop where
  defines : m.Defines s t a
  le : ∀ b, m.Defines s t b → sourceKey scope a ≤ sourceKey scope b

theorem First.uniqueId_eq (ha : m.First scope s t a) (hb : m.First scope s t b) : a.uniqueId = b.uniqueId := by
  have hkey : sourceKey scope a = sourceKey scope b := le_antisymm (ha.le b hb.defines) (hb.le a ha.defines)
  exact congrArg (fun key => (ofLex key).2) hkey

theorem sourceBefore_eq : sourceBefore scope = fun a b => decide (sourceKey scope a ≤ sourceKey scope b) := by
  funext a b
  rw [Bool.eq_iff_iff, decide_eq_true_iff, sourceKey, sourceKey, Prod.Lex.toLex_le_toLex]
  simp [sourceBefore]

theorem mem_filter_sources :
    a ∈ m.sources.values.filter (fun a => a.sourceName == s && a.name == t) ↔ m.Defines s t a := by
  rw [List.mem_filter, mem_values_iff, Bool.and_eq_true, beq_iff_eq, beq_iff_eq]
  exact exists_and_right.symm

/-- A lookup finds the first source of the names, if there is one. -/
theorem resolveSource_spec (m : Manifest) (scope : Scope) (s t : String) :
    (m.resolveSource scope s t = .notFound ∧ ∀ a, ¬ m.Defines s t a) ∨
      ∃ a, m.First scope s t a ∧ m.resolveSource scope s t = .found a.uniqueId := by
  have hmem : ∀ a, a ∈ (m.sources.values.filter fun a => a.sourceName == s && a.name == t).mergeSort
      (sourceBefore scope) ↔ m.Defines s t a := fun a => List.mem_mergeSort.trans mem_filter_sources
  have hsorted := Graph.pairwise_mergeSort_key (sourceKey scope)
    (m.sources.values.filter fun a => a.sourceName == s && a.name == t)
  rw [← sourceBefore_eq] at hsorted
  unfold resolveSource
  dsimp only
  generalize (List.filter _ _).mergeSort _ = found at hmem hsorted
  cases found with
  | nil => exact .inl ⟨rfl, fun a ha => List.not_mem_nil ((hmem a).2 ha)⟩
  | cons first rest =>
    refine .inr ⟨first, ⟨(hmem first).1 List.mem_cons_self, fun b hb => ?_⟩, rfl⟩
    rcases List.mem_cons.1 ((hmem b).2 hb) with rfl | hrest
    · exact le_rfl
    · exact (List.pairwise_cons.1 hsorted).1 b hrest

theorem Defines.exists_first (ha : m.Defines s t a) (scope : Scope) :
    ∃ b, m.First scope s t b ∧ m.resolveSource scope s t = .found b.uniqueId :=
  (m.resolveSource_spec scope s t).resolve_left fun h => h.2 a ha

theorem resolveSource_eq_notFound_iff : m.resolveSource scope s t = .notFound ↔ ∀ a, ¬ m.Defines s t a := by
  obtain ⟨heq, hnone⟩ | ⟨a, ha, heq⟩ := m.resolveSource_spec scope s t
  · exact iff_of_true heq hnone
  · refine iff_of_false (fun h => ?_) fun hnone => hnone a ha.defines
    rw [heq] at h
    cases h

theorem resolveSource_eq_found_iff :
    m.resolveSource scope s t = .found id ↔ ∃ a, m.First scope s t a ∧ a.uniqueId = id := by
  obtain ⟨heq, hnone⟩ | ⟨a, ha, heq⟩ := m.resolveSource_spec scope s t
  · refine iff_of_false (fun h => ?_) fun ⟨a, ha, _⟩ => hnone a ha.defines
    rw [heq] at h
    cases h
  · rw [heq, Resolution.found.injEq]
    exact ⟨fun h => ⟨a, ha, h⟩, fun ⟨b, hb, h⟩ => (ha.uniqueId_eq hb).trans h⟩

theorem resolveSource_ne_ambiguous : m.resolveSource scope s t ≠ .ambiguous ids := by
  obtain ⟨heq, -⟩ | ⟨a, -, heq⟩ := m.resolveSource_spec scope s t <;> rw [heq] <;> exact nofun

/-! ## Lookups that do not depend on who asks -/

/-- Every project and every package gets the same answer. -/
def ContextFree (m : Manifest) (s t : String) : Prop :=
  ∀ scope scope', m.resolveSource scope s t = m.resolveSource scope' s t

/-- The first source has the least identity in its package. -/
theorem First.uniqueId_le (ha : m.First scope s t a) (hb : m.Defines s t b)
    (hp : b.packageName = a.packageName) : a.uniqueId ≤ b.uniqueId := by
  have hle := ha.le b hb
  rw [sourceKey, sourceKey, Prod.Lex.toLex_le_toLex, hp] at hle
  simpa using hle

/-- If the root project has such a source, then the first is one of its own. -/
theorem First.packageName_eq {p : String} (ha : m.First ⟨p, p⟩ s t a) (hb : m.Defines s t b)
    (hp : b.packageName = p) : a.packageName = p := by
  have hle := ha.le b hb
  rw [sourceKey, sourceKey, Prod.Lex.toLex_le_toLex] at hle
  by_contra hne
  simp [sourcePriority, hne, hp] at hle

/-- Everyone gets the same answer if each package with such a source has one with the least identity of all. -/
theorem contextFree_iff :
    m.ContextFree s t ↔ ∀ a b, m.Defines s t a → m.Defines s t b →
      ∃ a', m.Defines s t a' ∧ a'.packageName = a.packageName ∧ a'.uniqueId ≤ b.uniqueId := by
  constructor
  · intro hfree a b ha hb
    -- Both packages as root projects have the same first source.
    obtain ⟨x, hx, heqx⟩ := ha.exists_first ⟨a.packageName, a.packageName⟩
    obtain ⟨y, hy, heqy⟩ := hb.exists_first ⟨b.packageName, b.packageName⟩
    have hsame : x.uniqueId = y.uniqueId := Resolution.found.inj (heqx.symm.trans ((hfree _ _).trans heqy))
    have hle : y.uniqueId ≤ b.uniqueId := hy.uniqueId_le hb (hy.packageName_eq hb rfl).symm
    exact ⟨x, hx.defines, hx.packageName_eq ha rfl, hsame.trans_le hle⟩
  · intro hall
    have hleast : ∀ {scope a b}, m.First scope s t a → m.Defines s t b → a.uniqueId ≤ b.uniqueId := by
      intro scope a b ha hb
      obtain ⟨a', ha', hpackage, hle⟩ := hall a b ha.defines hb
      exact (ha.uniqueId_le ha' hpackage).trans hle
    intro scope scope'
    obtain ⟨heq, hnone⟩ | ⟨a, ha, heq⟩ := m.resolveSource_spec scope s t
    · exact heq.trans (resolveSource_eq_notFound_iff.2 hnone).symm
    · obtain ⟨b, hb, heq'⟩ := ha.defines.exists_first scope'
      rw [heq, heq', le_antisymm (hleast ha hb.defines) (hleast hb ha.defines)]

/-! ## Names that are reported -/

instance : Std.LawfulEqCmp sourceOrder where
  eq_of_compare {a b} h := by
    unfold sourceOrder at h
    simp only [compareLex_eq_eq, compareOn, compare_eq_iff_eq] at h
    exact Prod.ext h.1 h.2

/-- The sources, each under its names. -/
def sourceEntries (m : Manifest) : List ((String × String) × NodeId) :=
  m.sources.toList.map fun (id, a) => ((a.sourceName, a.name), id)

theorem mem_duplicateSources :
    ((s, t), ids) ∈ m.duplicateSources ↔ ids = idsOf m.sourceEntries (s, t) ∧ 1 < ids.length :=
  mem_sharedKeys

theorem mem_idsOf_sourceEntries : id ∈ idsOf m.sourceEntries (s, t) ↔ ∃ a, m.DefinesAt s t id a := by
  rw [mem_idsOf, sourceEntries, List.mem_map]
  simp only [Prod.exists, Prod.mk.injEq, Std.ExtTreeMap.mem_toList_iff_getElem?_eq_some]
  constructor
  · rintro ⟨_, a, ha, hnames, rfl⟩
    exact ⟨a, ha, hnames⟩
  · rintro ⟨a, ha, hnames⟩
    exact ⟨id, a, ha, hnames, rfl⟩

theorem nodup_idsOf_sourceEntries : (idsOf m.sourceEntries (s, t)).Nodup := by
  have hkeys : (m.sources.toList.map (·.1)).Nodup :=
    (Std.ExtTreeMap.ordered_keys_toList.imp fun h => (compare_lt_iff_lt.1 h).ne).map _ fun _ _ h => h
  have hids : m.sourceEntries.map (·.2) = m.sources.toList.map (·.1) := List.map_map ..
  exact (hids ▸ hkeys).sublist (List.filter_sublist.map _)

/-- Sources share their names if these stand under two identities. -/
theorem one_lt_length_idsOf_sourceEntries :
    1 < (idsOf m.sourceEntries (s, t)).length ↔
      ∃ id id', id ≠ id' ∧ (∃ a, m.DefinesAt s t id a) ∧ ∃ a, m.DefinesAt s t id' a := by
  rw [← List.toFinset_card_of_nodup nodup_idsOf_sourceEntries, Finset.one_lt_card]
  simp only [List.mem_toFinset, mem_idsOf_sourceEntries]
  constructor
  · rintro ⟨id, hid, id', hid', hne⟩
    exact ⟨id, id', hne, hid, hid'⟩
  · rintro ⟨id, id', hne, hid, hid'⟩
    exact ⟨id, hid, id', hid', hne⟩

/-- A finding that these names, and no others, are those of the sources it lists. -/
structure ReportsDuplicate (m : Manifest) (s t : String) (d : Diagnostic) : Prop where
  code : d.code = .sourceDuplicate
  message : d.message = "source('" ++ s ++ "', '" ++ t ++ "') is defined " ++ toString d.related.length
    ++ " times: " ++ ", ".intercalate d.related
  /-- Two pairs of names can have one text, so the sources decide which of them is meant. -/
  sources : ∀ id, id ∈ d.related ↔ ∃ a, m.DefinesAt s t id a

theorem withCode_sourceDuplicate :
    withCode .sourceDuplicate (m.findings c g) = m.duplicateSourceFindings c := by
  rw [withCode_findings]
  simp [checks, coded_duplicateSourceFindings.withCode_eq_self]

/-- The names that several sources have are reported, with these sources. -/
theorem exists_reportsDuplicate_iff :
    (∃ d ∈ m.findings c g, m.ReportsDuplicate s t d) ↔
      ∃ id id', id ≠ id' ∧ (∃ a, m.DefinesAt s t id a) ∧ ∃ a, m.DefinesAt s t id' a := by
  rw [← exists_withCode_iff fun _ h => h.code, withCode_sourceDuplicate, ← one_lt_length_idsOf_sourceEntries]
  constructor
  · rintro ⟨d, hd, hreports⟩
    obtain ⟨⟨⟨s', t'⟩, ids⟩, hshared, rfl⟩ := List.mem_map.1 hd
    obtain ⟨rfl, hseveral⟩ := mem_duplicateSources.1 hshared
    -- The first of the sources has the names of the group and those that are reported.
    obtain ⟨id, hid⟩ := List.exists_mem_of_length_pos (Nat.zero_lt_of_lt hseveral)
    obtain ⟨a, ha, rfl, rfl⟩ := mem_idsOf_sourceEntries.1 hid
    obtain ⟨b, hb, rfl, rfl⟩ := (hreports.sources id).1 hid
    obtain rfl : a = b := Option.some.inj (ha.symm.trans hb)
    exact hseveral
  · intro hseveral
    have hshared := mem_duplicateSources.2 ⟨rfl, hseveral⟩
    exact ⟨_, List.mem_map.2 ⟨_, hshared, rfl⟩, rfl, rfl, fun id => mem_idsOf_sourceEntries⟩

/-- The only source of its names is the answer to everyone. -/
theorem contextFree_of_unique (h : ∀ id id' a b, m.DefinesAt s t id a → m.DefinesAt s t id' b → id = id') :
    m.ContextFree s t := by
  refine contextFree_iff.2 fun a b ha hb => ⟨a, ha, rfl, ?_⟩
  obtain ⟨id, hid⟩ := ha
  obtain ⟨id', hid'⟩ := hb
  obtain rfl := h id id' a b hid hid'
  obtain rfl : a = b := Option.some.inj (hid.1.symm.trans hid'.1)
  exact le_rfl

/-- **The first of several sources is taken, and they are reported.** A lookup finds the source that is first by
package and identity, or nothing if none has the names; it is never ambiguous. Validation reports the names exactly
if sources under two identities have them, and where it does not, everyone gets the same answer. In general,
everyone does exactly if each package with such a source has one with the least identity of all. -/
theorem resolveSource_first (m : Manifest) (c : Config) (timestamp : String) :
    (∀ scope s t,
      (m.resolveSource scope s t = .notFound ↔ ∀ a, ¬ m.Defines s t a) ∧
      (∀ id, m.resolveSource scope s t = .found id ↔ ∃ a, m.First scope s t a ∧ a.uniqueId = id) ∧
      ∀ ids, m.resolveSource scope s t ≠ .ambiguous ids) ∧
    ∃ r, m.validate? c timestamp = .ok r ∧ ∀ s t,
      ((∃ d ∈ r.diagnostics, m.ReportsDuplicate s t d) ↔
        ∃ id id', id ≠ id' ∧ (∃ a, m.DefinesAt s t id a) ∧ ∃ a, m.DefinesAt s t id' a) ∧
      ((¬ ∃ d ∈ r.diagnostics, m.ReportsDuplicate s t d) → m.ContextFree s t) ∧
      (m.ContextFree s t ↔ ∀ a b, m.Defines s t a → m.Defines s t b →
        ∃ a', m.Defines s t a' ∧ a'.packageName = a.packageName ∧ a'.uniqueId ≤ b.uniqueId) := by
  refine ⟨fun scope s t => ⟨resolveSource_eq_notFound_iff, fun id => resolveSource_eq_found_iff,
    fun ids => resolveSource_ne_ambiguous⟩, _, validate?_eq, fun s t => ?_⟩
  rw [diagnostics_validate]
  refine ⟨exists_reportsDuplicate_iff, fun hnone => contextFree_of_unique ?_, contextFree_iff⟩
  intro id id' a b ha hb
  by_contra hne
  exact hnone (exists_reportsDuplicate_iff.2 ⟨id, id', hne, ⟨a, ha⟩, b, hb⟩)

/-- A table of the source `raw`. -/
def rawTable (id package name : String) : Source :=
  { uniqueId := id, sourceName := "raw", name, resourceType := .source, packageName := package }

/-- Three sources, two of them under the same names in different packages. -/
def threeSources : Manifest :=
  { sources := (((∅ : Collection Source).insert "a" (rawTable "a" "dep" "orders")).insert
      "b" (rawTable "b" "root" "orders")).insert "c" (rawTable "c" "dep" "customers") }

/-- The root project gets its own `orders`, and another one gets that of `dep`. Both are reported. There is one
`customers`, so it is not reported, and everyone gets it. -/
theorem resolveSource_first_orders :
    let m := threeSources
    m.resolveSource ⟨"root", "dep"⟩ "raw" "orders" = .found "b" ∧
      m.resolveSource ⟨"other", "dep"⟩ "raw" "orders" = .found "a" ∧ ¬ m.ContextFree "raw" "orders" ∧
      ∃ r, m.validate? {} "now" = .ok r ∧ (∃ d ∈ r.diagnostics, m.ReportsDuplicate "raw" "orders" d) ∧
        (¬ ∃ d ∈ r.diagnostics, m.ReportsDuplicate "raw" "customers" d) ∧ m.ContextFree "raw" "customers" := by
  intro m
  have horders : (m.sources.values.filter fun a => a.sourceName == "raw" && a.name == "orders") =
      [rawTable "a" "dep" "orders", rawTable "b" "root" "orders"] := by decide +kernel
  have hb : m.resolveSource ⟨"root", "dep"⟩ "raw" "orders" = .found "b" := by
    simp [resolveSource, horders, List.mergeSort, sourceBefore, sourcePriority, rawTable]
  have ha : m.resolveSource ⟨"other", "dep"⟩ "raw" "orders" = .found "a" := by
    simp [resolveSource, horders, List.mergeSort, sourceBefore, sourcePriority, rawTable]
  obtain ⟨-, r, hr, hnames⟩ := resolveSource_first m {} "now"
  obtain ⟨hreported, -, -⟩ := hnames "raw" "orders"
  obtain ⟨hcustomers, hfree, -⟩ := hnames "raw" "customers"
  have hids : idsOf m.sourceEntries ("raw", "customers") = ["c"] := by decide +kernel
  have hnone : ¬ ∃ d ∈ r.diagnostics, m.ReportsDuplicate "raw" "customers" d := by
    rw [hcustomers, ← one_lt_length_idsOf_sourceEntries, hids]
    decide
  refine ⟨hb, ha, fun h => ?_, r, hr, hreported.2 ⟨"a", "b", by decide, ?_, ?_⟩, hnone, hfree hnone⟩
  · exact absurd ((hb.symm.trans (h _ _)).trans ha) (by decide)
  · exact mem_idsOf_sourceEntries.1 (by decide +kernel)
  · exact mem_idsOf_sourceEntries.1 (by decide +kernel)

end Lineage.Manifest
