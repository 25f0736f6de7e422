import Lineage.Proofs.Resolve.Tier

/-!
# Materializations without overrides

Where overrides are not allowed and an internal package implements a materialization for some type of the chain,
the lookup is one among the macros of the root project and the internal packages
(`MacroResolver.findMaterialization_eq`): the first type that has any of these decides, whatever imported
packages define, for this type or for a more specific one. So imported packages have no part in the result
(`Manifest.findMaterialization_ignores_imported`).

A package stands in one tier: the root project is not internal, even if it is one of the adapter's packages.
-/

namespace Lineage

namespace MacroResolver

variable {r : MacroResolver} {name materialization type : String} {c : MacroCandidate}

/-- The candidates of the root project, then those of the internal packages, each best first. -/
def nonImported (r : MacroResolver) (name : String) : List MacroCandidate :=
  r.inTier name .root ++ r.inTier name .core

theorem mem_nonImported : c ∈ r.nonImported name ↔ c ∈ r.candidates name ∧ c.locality ≠ .imported := by
  unfold nonImported inTier
  rw [List.mem_append, List.mem_filter, List.mem_filter]
  cases c.locality <;> simp

theorem nonImported_eq_nil_iff :
    r.nonImported name = [] ↔ (r.candidates name).filter (·.locality != .imported) = [] := by
  simp only [List.eq_nil_iff_forall_not_mem, mem_nonImported, List.mem_filter, bne_iff_ne]

theorem inTier_filter_of_ne {t : Locality} (ht : t ≠ .imported) :
    ((r.candidates name).filter (·.locality != .imported)).filter (·.locality == t) = r.inTier name t := by
  unfold inTier
  rw [List.filter_filter]
  refine List.filter_congr fun c _ => ?_
  by_cases hc : c.locality = t
  · simp [hc, ht]
  · simp [hc]

/-- Without the imported candidates, the best of the others is taken under either policy. -/
theorem choose_filter :
    r.choose name ((r.candidates name).filter (·.locality != .imported)) =
      .ok ((r.nonImported name).head?.map (·.uniqueId)) := by
  have himported : ((r.candidates name).filter (·.locality != .imported)).filter (·.locality == .imported) = [] := by
    simp [List.filter_filter]
  rw [choose_eq_ofTiers (pairwise_depth_candidates.filter _), himported, inTier_filter_of_ne (by decide),
    inTier_filter_of_ne (by decide), nonImported]
  cases r.inTier name .root with
  | nil => rfl
  | cons c rest => rfl

/-- The first type that has any candidates left is the first that has any of the root project or an internal
package. -/
theorem choose_first (types : List String) :
    (match (types.map fun type => (materializationName materialization type,
        (r.candidates (materializationName materialization type)).filter (·.locality != .imported))).find?
          (!·.2.isEmpty) with
      | some (name, cs) => r.choose name cs
      | none => .ok none) =
      .ok (types.findSome? fun type =>
        (r.nonImported (materializationName materialization type)).head?.map (·.uniqueId)) := by
  induction types with
  | nil => rfl
  | cons type types ih =>
    rw [List.map_cons, List.find?_cons, List.findSome?_cons]
    by_cases hnone : (r.candidates (materializationName materialization type)).filter (·.locality != .imported) = []
    · simpa [hnone, nonImported_eq_nil_iff.2 hnone] using ih
    · obtain ⟨best, rest, hbest⟩ := List.exists_cons_of_ne_nil (nonImported_eq_nil_iff.not.2 hnone)
      have hleft := List.isEmpty_eq_false_iff.2 hnone
      simp [hleft, choose_filter, hbest]

/-- Without overrides, a materialization that an internal package implements is looked up among the macros of the
root project and the internal packages, type by type. -/
theorem findMaterialization_eq (hoverride : r.policy.allowPackageOverride = false) (htype : type ∈ r.typeChain)
    (hcore : r.namedIn (materializationName materialization type) .core ≠ []) :
    r.findMaterialization materialization =
      .ok (r.typeChain.findSome? fun type =>
        (r.nonImported (materializationName materialization type)).head?.map (·.uniqueId)) := by
  have hhas : (r.materializationCandidates materialization).any (·.2.any (·.locality == .core)) = true := by
    obtain ⟨c, hc⟩ := List.exists_mem_of_ne_nil _ (inTier_eq_nil_iff.not.2 hcore)
    obtain ⟨hc, hlocality⟩ := List.mem_filter.1 hc
    exact List.any_eq_true.2 ⟨_, List.mem_map.2 ⟨type, htype, rfl⟩, List.any_eq_true.2 ⟨c, hc, hlocality⟩⟩
  unfold findMaterialization
  simp only [hhas, hoverride, Bool.false_or, Bool.not_true]
  rw [materializationCandidates, List.map_map]
  exact choose_first r.typeChain

/-- If some type of the chain has candidates of the root project or an internal package, the first such type decides. -/
theorem exists_first_nonImported (htype : type ∈ r.typeChain)
    (hsome : r.nonImported (materializationName materialization type) ≠ []) :
    ∃ before first after best, r.typeChain = before ++ first :: after ∧
      (∀ t ∈ before, r.nonImported (materializationName materialization t) = []) ∧
      (r.nonImported (materializationName materialization first)).head? = some best ∧
      (r.typeChain.findSome? fun t => (r.nonImported (materializationName materialization t)).head?.map (·.uniqueId)) =
        some best.uniqueId := by
  cases hfound : r.typeChain.findSome? fun t =>
      (r.nonImported (materializationName materialization t)).head?.map (·.uniqueId) with
  | none =>
    have hnone := List.findSome?_eq_none_iff.1 hfound type htype
    simp [hsome] at hnone
  | some id =>
    obtain ⟨before, first, after, hchain, hfirst, hbefore⟩ := List.findSome?_eq_some_iff.1 hfound
    obtain ⟨best, hbest, rfl⟩ := Option.map_eq_some_iff.1 hfirst
    exact ⟨before, first, after, best, hchain, fun t ht => by simpa using hbefore t ht, hbest, rfl⟩

/-- Imported macros have no part in the candidates of the root project and the internal packages. -/
theorem nonImported_congr {r' : MacroResolver} (hroot : r'.rootProject = r.rootProject)
    (hpackages : r'.internalPackages = r.internalPackages)
    (hnamed : ∀ t, t ≠ .imported → r'.namedIn name t = r.namedIn name t) :
    r'.nonImported name = r.nonImported name := by
  rw [nonImported, nonImported, inTier_congr hroot hpackages (hnamed .root (by decide)),
    inTier_congr hroot hpackages (hnamed .core (by decide))]

end MacroResolver

namespace Manifest

open MacroResolver

/-- Adding a macro leaves those that are stored already. -/
theorem getElem?_addMacro {m : Manifest} {e d : MacroDef} {id : NodeId} (hfresh : m.macros[e.uniqueId]? = none)
    (hne : d ≠ e) : (m.addMacro e).macros[id]? = some d ↔ m.macros[id]? = some d := by
  change (m.macros.insert e.uniqueId e)[id]? = some d ↔ _
  rw [Std.ExtTreeMap.getElem?_insert]
  split
  · rename_i hid
    obtain rfl := compare_eq_iff_eq.1 hid
    simp [hfresh, hne.symm]
  · rfl

/-- **Imported packages have no part.** If overrides are not allowed and an internal package implements the
materialization for some type of the chain, then manifests that differ only in macros of imported packages give the
same result. It is no error, but the root project's macro, or else the first internal one, for the first type of
the chain that has any of these. -/
theorem findMaterialization_ignores_imported (m m' : Manifest) (rootProject adapterType : String)
    (registry : Registry) (strict : Bool) (materialization : String) :
    let resolver := fun m : Manifest =>
      MacroResolver.ofManifest m rootProject adapterType registry ⟨false, strict⟩
    let r := resolver m
    let name := materializationName materialization
    (∀ (id : NodeId) (d : MacroDef), r.locality d.packageName ≠ .imported →
      (m'.macros[id]? = some d ↔ m.macros[id]? = some d)) →
    (∃ type ∈ r.typeChain, ∃ (id : NodeId) (d : MacroDef), m.macros[id]? = some d ∧ d.name = name type ∧
      r.locality d.packageName = .core) →
    (resolver m').findMaterialization materialization = r.findMaterialization materialization ∧
      ∃ before type after best, r.typeChain = before ++ type :: after ∧ (∀ t ∈ before, r.nonImported (name t) = []) ∧
        (r.nonImported (name type)).head? = some best ∧
        r.findMaterialization materialization = .ok (some best.uniqueId) := by
  intro resolver r name hsame hinternal
  obtain ⟨type, htype, id, d, hd, hname, hlocality⟩ := hinternal
  have hnamed : ∀ n (t : Locality), t ≠ .imported → (resolver m').namedIn n t = r.namedIn n t := by
    intro n t ht
    refine filter_values_congr fun id d hd => hsame id d ?_
    rw [Bool.and_eq_true, beq_iff_eq, beq_iff_eq] at hd
    exact hd.2 ▸ ht
  have hcore : r.namedIn (name type) .core ≠ [] :=
    List.ne_nil_of_mem (List.mem_filter.2 ⟨mem_values_iff.2 ⟨id, hd⟩, by simp [hname, hlocality]⟩)
  have hfind := findMaterialization_eq (r := r) rfl htype hcore
  have hfind' := findMaterialization_eq (r := resolver m') rfl htype (hnamed _ .core (by decide) ▸ hcore)
  have hnonImported : ∀ n, (resolver m').nonImported n = r.nonImported n :=
    fun n => nonImported_congr rfl rfl (hnamed n)
  have hsome : r.nonImported (name type) ≠ [] :=
    fun hnil => inTier_eq_nil_iff.not.2 hcore (List.append_eq_nil_iff.1 hnil).2
  obtain ⟨before, first, after, best, hchain, hbefore, hbest, hfirst⟩ := exists_first_nonImported htype hsome
  refine ⟨?_, before, first, after, best, hchain, hbefore, hbest, hfind.trans (congrArg Except.ok hfirst)⟩
  rw [hfind', hfind]
  simp only [hnonImported]
  rfl

/-- Two imported packages implement tables for Redshift, where the fallback package has them for all adapters. -/
theorem findMaterialization_ignores_imported_twice :
    let m := ({} : Manifest).addMacro (.ofName "dbt" "materialization_table_default")
    let m' := (m.addMacro (.ofName "p" "materialization_table_redshift")).addMacro
      (.ofName "q" "materialization_table_redshift")
    let find := fun m : Manifest =>
      (MacroResolver.ofManifest m "root" "redshift" Registry.builtin ⟨false, true⟩).findMaterialization "table"
    find m' = find m ∧ find m = .ok (some "macro.dbt.materialization_table_default") := by
  intro m m' find
  have hsame : ∀ (id : NodeId) (d : MacroDef),
      (MacroResolver.ofManifest m "root" "redshift" Registry.builtin ⟨false, true⟩).locality d.packageName ≠ .imported →
        (m'.macros[id]? = some d ↔ m.macros[id]? = some d) := by
    intro id d hd
    have hp : d ≠ .ofName "p" "materialization_table_redshift" := by
      rintro rfl
      exact absurd hd (by decide +kernel)
    have hq : d ≠ .ofName "q" "materialization_table_redshift" := by
      rintro rfl
      exact absurd hd (by decide +kernel)
    rw [getElem?_addMacro (by decide +kernel) hq, getElem?_addMacro (by decide +kernel) hp]
  obtain ⟨hfind, before, type, after, best, -, -, hbest, hresult⟩ :=
    findMaterialization_ignores_imported m m' "root" "redshift" Registry.builtin true "table" hsame
      ⟨"default", by decide +kernel, "macro.dbt.materialization_table_default",
        .ofName "dbt" "materialization_table_default", by decide +kernel, rfl, by decide +kernel⟩
  refine ⟨hfind, hresult.trans ?_⟩
  obtain ⟨d, hd, -, rfl⟩ := mem_candidates.1 (mem_nonImported.1 (List.mem_of_mem_head? hbest)).1
  have hmacros : m.macros.values = [.ofName "dbt" "materialization_table_default"] := by decide +kernel
  change d ∈ m.macros.values at hd
  rw [hmacros, List.mem_singleton] at hd
  rw [hd]
  rfl

end Manifest

end Lineage
