import Lineage.Proofs.Json.Fields
import Lineage.Proofs.Manifest.Built
import Lineage.Proofs.Manifest.Focus

/-!
# Built manifests that are written and read

A manifest that built records are added to (`Edit.Built`) was not read from a text, so it can hold what no text is
read as. A plain record is read as itself, but for a null that stands for a version (`Node.ofJson?_toJson`), and
nests as deep as its version does (`Node.fits_toJson_iff`). So the manifest is read back without such nulls, if no
version nests too deep (`parse?_toText_built_iff`). A lookup can tell the difference (`reload_changes_resolution`).
-/

namespace Lineage

open Json

/-! ## Records -/

/-- The node as it is read back: a null for its version is gone. -/
def Node.reloaded (n : Node) : Node := { n with version := n.version.filter (· != .null) }

theorem Node.reloaded_eq_self_iff {n : Node} : n.reloaded = n ↔ n.version ≠ some .null := by
  have hversion : n.reloaded = n ↔ n.version.filter (· != .null) = n.version :=
    ⟨congrArg Node.version, fun h => by rw [reloaded, h]⟩
  rw [hversion]
  cases n.version with
  | none => simp
  | some v => simp [Option.filter_some]

theorem Json.required_type {name : String} {fields : List (String × Json)} {t : ResourceType}
    (hlookup : fields.lookup name = some t.toJson) : required name ResourceType.ofJson? fields = some t := by
  rw [required, hlookup]
  exact ResourceType.ofName?_name t

theorem ArtifactConfig.ofJson?_toJson {c : ArtifactConfig} (h : c.extra = ∅) : ofJson? c.toJson = some c := by
  rw [toJson, Std.ExtTreeMap.toList_eq_nil_iff.2 h]
  simp only [List.append_assoc]
  refine ofJson?_obj.2 ⟨Among.distinct ?among (by decide), optional_flag ?_, optional_text ?_, optional_text ?_,
    (Among.others_eq ?among).trans h.symm⟩
  case among => exact .optionalField (.optionalField (.optionalField .nil))
  all_goals simp [List.lookup_append, lookup_optionalField]

theorem Node.ofJson?_toJson {n : Node} (h : n.Plain) : ofJson? n.toJson = some n.reloaded := by
  rw [toJson, Std.ExtTreeMap.toList_eq_nil_iff.2 h.extra]
  simp only [List.append_assoc, List.cons_append, List.nil_append]
  refine ofJson?_obj.2 ⟨Among.distinct ?among (by decide), required_text ?_, required_text ?_, required_type ?_,
    required_text ?_, optional_any ?_ fun v hv => (h.version v hv).sorted, ?_, optional_text ?_,
    defaulted_of_lookup ?_ (ArtifactConfig.ofJson?_toJson h.config),
    defaulted_of_lookup ?_ (DependsOn.ofJson?_toJson _), (Among.others_eq ?among).trans h.extra.symm⟩
  case among =>
    exact .cons (.cons (.cons (.cons (.optionalField (.optionalField (.optionalField (.cons (.cons .nil))))))))
  all_goals simp [List.lookup_append, List.lookup_cons, lookup_optionalField, Json.optional, h.latestVersion, reloaded]

theorem Resource.ofJson?_toJson {r : Resource} (h : r.Plain) : ofJson? r.toJson = some r := by
  rw [toJson, Std.ExtTreeMap.toList_eq_nil_iff.2 h.extra]
  simp only [List.append_assoc, List.cons_append, List.nil_append]
  refine ofJson?_obj.2 ⟨Among.distinct ?among (by decide), required_text ?_, required_text ?_, required_type ?_,
    required_text ?_, optional_text ?_, defaulted_of_lookup ?_ (ArtifactConfig.ofJson?_toJson h.config),
    defaulted_of_lookup ?_ (DependsOn.ofJson?_toJson _), (Among.others_eq ?among).trans h.extra.symm⟩
  case among => exact .cons (.cons (.cons (.cons (.optionalField (.cons (.cons .nil))))))
  all_goals simp [List.lookup_append, List.lookup_cons, lookup_optionalField]

theorem Source.ofJson?_toJson {s : Source} (h : s.extra = ∅) : ofJson? s.toJson = some s := by
  rw [toJson, Std.ExtTreeMap.toList_eq_nil_iff.2 h, List.append_nil]
  refine ofJson?_obj.2 ⟨Among.distinct ?among (by decide), required_text ?_, required_text ?_, required_text ?_,
    required_type ?_, required_text ?_, (Among.others_eq ?among).trans h.symm⟩
  case among => exact .cons (.cons (.cons (.cons (.cons .nil))))
  all_goals simp [List.lookup_cons]

theorem MacroDef.ofJson?_toJson {d : MacroDef} (h : d.extra = ∅) : ofJson? d.toJson = some d := by
  rw [toJson, Std.ExtTreeMap.toList_eq_nil_iff.2 h, List.append_nil]
  refine ofJson?_obj.2 ⟨Among.distinct ?among (by decide), required_text ?_, required_text ?_, required_type ?_,
    required_text ?_, defaulted_of_lookup ?_ (DependsOn.ofJson?_toJson _), (Among.others_eq ?among).trans h.symm⟩
  case among => exact .cons (.cons (.cons (.cons (.cons .nil))))
  all_goals simp [List.lookup_cons]

theorem Doc.ofJson?_toJson {d : Doc} (h : d.extra = ∅) : ofJson? d.toJson = some d := by
  rw [toJson, Std.ExtTreeMap.toList_eq_nil_iff.2 h, List.append_nil]
  refine ofJson?_obj.2 ⟨Among.distinct ?among (by decide), required_text ?_, required_text ?_, required_type ?_,
    required_text ?_, (Among.others_eq ?among).trans h.symm⟩
  case among => exact .cons (.cons (.cons (.cons .nil)))
  all_goals simp [List.lookup_cons]

theorem Group.ofJson?_toJson {g : Group} (h : g.extra = ∅) : ofJson? g.toJson = some g := by
  rw [toJson, Std.ExtTreeMap.toList_eq_nil_iff.2 h, List.append_nil]
  refine ofJson?_obj.2 ⟨Among.distinct ?among (by decide), required_text ?_, required_text ?_, required_type ?_,
    required_text ?_, (Among.others_eq ?among).trans h.symm⟩
  case among => exact .cons (.cons (.cons (.cons .nil)))
  all_goals simp [List.lookup_cons]

theorem Metadata.ofJson?_toJson {m : Metadata} (h : m.extra = ∅) : ofJson? m.toJson = some m := by
  rw [toJson, Std.ExtTreeMap.toList_eq_nil_iff.2 h]
  simp only [List.append_assoc]
  refine ofJson?_obj.2 ⟨Among.distinct ?among (by decide), optional_text ?_, optional_text ?_, optional_text ?_,
    optional_text ?_, optional_text ?_, optional_text ?_, (Among.others_eq ?among).trans h.symm⟩
  case among =>
    exact .optionalField (.optionalField (.optionalField (.optionalField (.optionalField (.optionalField .nil)))))
  all_goals simp [List.lookup_append, lookup_optionalField]

/-! ## How deep records nest -/

section Depth

variable {p : Number → Prop} {depth : Nat}

theorem ArtifactConfig.fits_toJson {c : ArtifactConfig} (h : c.extra = ∅) (hdepth : 1 ≤ depth) :
    Fits p .whole depth c.toJson := by
  obtain ⟨depth, rfl⟩ : ∃ less, depth = less + 1 := ⟨depth - 1, by omega⟩
  rw [toJson, Std.ExtTreeMap.toList_eq_nil_iff.2 h, fits_obj_iff]
  simp only [List.forall_mem_append, forall_mem_optionalField, List.not_mem_nil, false_imp_iff, implies_true,
    and_true, fits_str, fits_bool]

/-- A node needs one more level than its version. -/
theorem Node.fits_toJson_iff {n : Node} (h : n.Plain) (hdepth : 2 ≤ depth) :
    Fits p .whole (depth + 1) n.toJson ↔ ∀ v, n.version = some v → Fits p .whole depth v := by
  have hconfig : Fits p .whole depth n.config.toJson := ArtifactConfig.fits_toJson h.config (by omega)
  have hdepends : Fits p .whole depth n.dependsOn.toJson := (n.dependsOn.fits_toJson hdepth).whole
  rw [toJson, Std.ExtTreeMap.toList_eq_nil_iff.2 h.extra, fits_obj_iff]
  simp only [List.forall_mem_append, List.forall_mem_cons, forall_mem_optionalField, List.not_mem_nil,
    false_imp_iff, implies_true, and_true, true_and, reduceCtorEq, fits_str, ResourceType.toJson, h.latestVersion,
    hconfig, hdepends, id]

theorem Resource.fits_toJson {r : Resource} (h : r.Plain) (hdepth : 2 ≤ depth) :
    Fits p .whole (depth + 1) r.toJson := by
  have hconfig : Fits p .whole depth r.config.toJson := ArtifactConfig.fits_toJson h.config (by omega)
  have hdepends : Fits p .whole depth r.dependsOn.toJson := (r.dependsOn.fits_toJson hdepth).whole
  rw [toJson, Std.ExtTreeMap.toList_eq_nil_iff.2 h.extra, fits_obj_iff]
  simp only [List.forall_mem_append, List.forall_mem_cons, forall_mem_optionalField, List.not_mem_nil,
    false_imp_iff, implies_true, and_true, fits_str, ResourceType.toJson, hconfig, hdepends]

theorem Source.fits_toJson {s : Source} (h : s.extra = ∅) : Fits p .whole (depth + 1) s.toJson := by
  rw [toJson, Std.ExtTreeMap.toList_eq_nil_iff.2 h, fits_obj_iff]
  simp only [List.append_nil, List.forall_mem_cons, List.not_mem_nil, false_imp_iff, implies_true,
    and_true, fits_str, ResourceType.toJson]

theorem MacroDef.fits_toJson {d : MacroDef} (h : d.extra = ∅) (hdepth : 2 ≤ depth) :
    Fits p .whole (depth + 1) d.toJson := by
  have hdepends : Fits p .whole depth d.dependsOn.toJson := (d.dependsOn.fits_toJson hdepth).whole
  rw [toJson, Std.ExtTreeMap.toList_eq_nil_iff.2 h, fits_obj_iff]
  simp only [List.append_nil, List.forall_mem_cons, List.not_mem_nil, false_imp_iff, implies_true,
    and_true, fits_str, ResourceType.toJson, hdepends]

theorem Doc.fits_toJson {d : Doc} (h : d.extra = ∅) : Fits p .whole (depth + 1) d.toJson := by
  rw [toJson, Std.ExtTreeMap.toList_eq_nil_iff.2 h, fits_obj_iff]
  simp only [List.append_nil, List.forall_mem_cons, List.not_mem_nil, false_imp_iff, implies_true,
    and_true, fits_str, ResourceType.toJson]

theorem Group.fits_toJson {g : Group} (h : g.extra = ∅) : Fits p .whole (depth + 1) g.toJson := by
  rw [toJson, Std.ExtTreeMap.toList_eq_nil_iff.2 h, fits_obj_iff]
  simp only [List.append_nil, List.forall_mem_cons, List.not_mem_nil, false_imp_iff, implies_true,
    and_true, fits_str, ResourceType.toJson]

theorem Metadata.fits_toJson {m : Metadata} (h : m.extra = ∅) : Fits p .whole (depth + 1) m.toJson := by
  rw [toJson, Std.ExtTreeMap.toList_eq_nil_iff.2 h, fits_obj_iff]
  simp only [List.forall_mem_append, forall_mem_optionalField, List.not_mem_nil, false_imp_iff, implies_true,
    and_true, fits_str]

end Depth

/-! ## Manifests -/

namespace Manifest

variable {m : Manifest}

/-- The manifest as it is read back. -/
def reloaded (m : Manifest) : Manifest := { m with nodes := m.nodes.map fun _ n => n.reloaded }

theorem ofJson?_toJson (h : m.Plain) : ofJson? m.toJson = some m.reloaded := by
  have hresources : ∀ {c : Collection Resource}, Keyed Resource.uniqueId Resource.Plain c →
      mapOf Resource.ofJson? (ofMap Resource.toJson c) = some c := fun hc =>
    mapOf_ofMap_self fun id r hr => Resource.ofJson?_toJson (hc id r hr).2
  have hselectors : mapOf any (ofMap id m.selectors) = some m.selectors := by
    rw [h.selectors]
    rfl
  have hdisabled : mapOf (listOf any) (ofMap .arr m.disabled) = some m.disabled := by
    rw [h.disabled]
    rfl
  rw [toJson, Std.ExtTreeMap.toList_eq_nil_iff.2 h.extra, List.append_nil]
  refine ofJson?_obj.2 ⟨Among.distinct ?among (by decide),
    defaulted_of_lookup ?_ (Metadata.ofJson?_toJson h.metadata),
    defaulted_of_lookup ?_ (mapOf_ofMap fun id n hn => Node.ofJson?_toJson (h.nodes id n hn).2),
    defaulted_of_lookup ?_ (mapOf_ofMap_self fun id s hs => Source.ofJson?_toJson (h.sources id s hs).2),
    defaulted_of_lookup ?_ (mapOf_ofMap_self fun id d hd => MacroDef.ofJson?_toJson (h.macros id d hd).2),
    defaulted_of_lookup ?_ (mapOf_ofMap_self fun id d hd => Doc.ofJson?_toJson (h.docs id d hd).2),
    defaulted_of_lookup ?_ (hresources h.exposures), defaulted_of_lookup ?_ (hresources h.metrics),
    defaulted_of_lookup ?_ (mapOf_ofMap_self fun id g hg => Group.ofJson?_toJson (h.groups id g hg).2),
    defaulted_of_lookup ?_ hselectors, defaulted_of_lookup ?_ hdisabled,
    defaulted_of_lookup ?_ (hresources h.semanticModels), defaulted_of_lookup ?_ (hresources h.unitTests),
    defaulted_of_lookup ?_ (hresources h.savedQueries), (Among.others_eq ?among).trans h.extra.symm⟩
  case among => exact List.Sublist.refl _
  all_goals simp [List.lookup_cons, reloaded]

/-- Every version leaves three levels for what stands around it. -/
def Shallow (m : Manifest) : Prop :=
  ∀ (id : NodeId) (n : Node) (v : Json), m.nodes[id]? = some n → n.version = some v → v.nesting + 3 ≤ depthLimit

instance : Decidable m.Shallow :=
  decidable_of_iff (∀ entry ∈ m.nodes.toList, ∀ v ∈ entry.2.version, v.nesting + 3 ≤ depthLimit) (by
    simp only [Shallow, Prod.forall, Std.ExtTreeMap.mem_toList_iff_getElem?_eq_some, Option.mem_def]
    exact forall₂_congr fun _ _ => forall_comm)

/-- A manifest needs three levels more than its versions. -/
theorem fits_toJson_iff (h : m.Plain) {p : Number → Prop} {depth : Nat} (hdepth : 2 ≤ depth) :
    Fits p .whole (depth + 3) m.toJson ↔
      ∀ (id : NodeId) (n : Node) (v : Json), m.nodes[id]? = some n → n.version = some v → Fits p .whole depth v := by
  have hnodes : Fits p .whole (depth + 2) (ofMap Node.toJson m.nodes) ↔
      ∀ (id : NodeId) (n : Node) (v : Json), m.nodes[id]? = some n → n.version = some v →
        Fits p .whole depth v := by
    rw [fits_ofMap_iff]
    refine forall₂_congr fun id n => ?_
    rw [forall_comm]
    exact forall_congr' fun hn => Node.fits_toJson_iff (h.nodes id n hn).2 hdepth
  have hresources : ∀ {c : Collection Resource}, Keyed Resource.uniqueId Resource.Plain c →
      Fits p .whole (depth + 2) (ofMap Resource.toJson c) := fun hc =>
    fits_ofMap_iff.2 fun id r hr => Resource.fits_toJson (hc id r hr).2 hdepth
  have hmetadata : Fits p .whole (depth + 2) m.metadata.toJson := Metadata.fits_toJson h.metadata
  have hsources : Fits p .whole (depth + 2) (ofMap Source.toJson m.sources) :=
    fits_ofMap_iff.2 fun id s hs => Source.fits_toJson (h.sources id s hs).2
  have hmacros : Fits p .whole (depth + 2) (ofMap MacroDef.toJson m.macros) :=
    fits_ofMap_iff.2 fun id d hd => MacroDef.fits_toJson (h.macros id d hd).2 hdepth
  have hdocs : Fits p .whole (depth + 2) (ofMap Doc.toJson m.docs) :=
    fits_ofMap_iff.2 fun id d hd => Doc.fits_toJson (h.docs id d hd).2
  have hgroups : Fits p .whole (depth + 2) (ofMap Group.toJson m.groups) :=
    fits_ofMap_iff.2 fun id g hg => Group.fits_toJson (h.groups id g hg).2
  have hselectors : Fits p .whole (depth + 2) (ofMap id m.selectors) := by
    rw [h.selectors]
    exact fits_ofMap_iff.2 (by simp)
  have hdisabled : Fits p .whole (depth + 2) (ofMap .arr m.disabled) := by
    rw [h.disabled]
    exact fits_ofMap_iff.2 (by simp)
  rw [toJson, Std.ExtTreeMap.toList_eq_nil_iff.2 h.extra, List.append_nil, fits_obj_iff]
  simp only [List.forall_mem_cons, List.not_mem_nil, false_imp_iff, implies_true, and_true, true_and, hmetadata, hnodes,
    hsources, hmacros, hdocs, hresources h.exposures, hresources h.metrics, hgroups, hselectors, hdisabled,
    hresources h.semanticModels, hresources h.unitTests, hresources h.savedQueries]

theorem nesting_le_iff (h : m.Plain) {depth : Nat} (hdepth : 2 ≤ depth) :
    m.toJson.nesting ≤ depth + 3 ↔ ∀ (id : NodeId) (n : Node) (v : Json), m.nodes[id]? = some n →
      n.version = some v → v.nesting ≤ depth := by
  have hiff := fits_toJson_iff h (p := fun _ => True) hdepth
  simpa [fits_whole_iff] using hiff

theorem inRange_numbers (h : m.Plain) : ∀ n ∈ m.toJson.numbers, n.InRange := by
  -- However deep the versions nest, with enough levels all of the manifest fits.
  have hnesting := (nesting_le_iff h (Nat.le_add_left 2 m.toJson.nesting)).1 (by omega)
  have hfits : Fits Number.InRange .whole (m.toJson.nesting + 2 + 3) m.toJson :=
    (fits_toJson_iff h (by omega)).2 fun id n v hn hv =>
      fits_whole_iff.2 ⟨hnesting id n v hn hv, ((h.nodes id n hn).2.version v hv).inRange⟩
  exact (fits_whole_iff.1 hfits).2

theorem reloaded_plain (h : m.Plain) : m.reloaded.Plain := by
  refine { h with nodes := fun id n hn => ?_ }
  rw [reloaded, Std.ExtTreeMap.getElem?_map, Option.map_eq_some_iff] at hn
  obtain ⟨n, hn, rfl⟩ := hn
  obtain ⟨hid, hplain⟩ := h.nodes id n hn
  refine ⟨hid, { hplain with version := fun v hv => hplain.version v ?_ }⟩
  exact (Option.filter_eq_some_iff.1 hv).1

theorem reloaded_eq_self_iff :
    m.reloaded = m ↔ ∀ (id : NodeId) (n : Node), m.nodes[id]? = some n → n.version ≠ some .null := by
  have hnodes : m.reloaded = m ↔ (m.nodes.map fun _ n => n.reloaded) = m.nodes :=
    ⟨congrArg Manifest.nodes, fun h => by rw [reloaded, h]⟩
  rw [hnodes]
  constructor
  · intro heq id n hn
    have hsame : (m.nodes.map fun _ n => n.reloaded)[id]? = some n := by rw [heq, hn]
    rw [Std.ExtTreeMap.getElem?_map, hn] at hsame
    exact Node.reloaded_eq_self_iff.1 (Option.some.inj hsame)
  · intro hversions
    refine Std.ExtTreeMap.ext_getElem? fun id => ?_
    rw [Std.ExtTreeMap.getElem?_map]
    cases hn : m.nodes[id]? with
    | none => rfl
    | some n => exact congrArg some (Node.reloaded_eq_self_iff.2 (hversions id n hn))

theorem shallow_iff (h : m.Plain) : m.Shallow ↔ m.toJson.nesting ≤ depthLimit := by
  show _ ↔ m.toJson.nesting ≤ 124 + 3
  rw [nesting_le_iff h (by decide)]
  simp only [Shallow, depthLimit, Nat.reduceLeDiff]

/-- A null nests as deep as no version. -/
theorem shallow_reloaded : m.reloaded.Shallow ↔ m.Shallow := by
  constructor
  · intro h id n v hn hv
    by_cases hnull : v = .null
    · subst hnull
      decide
    · refine h id n.reloaded v ?_ ?_
      · rw [reloaded, Std.ExtTreeMap.getElem?_map, hn, Option.map_some]
      · rw [Node.reloaded, hv, Option.filter_some, if_pos (bne_iff_ne.2 hnull)]
  · intro h id n v hn hv
    rw [reloaded, Std.ExtTreeMap.getElem?_map, Option.map_eq_some_iff] at hn
    obtain ⟨n, hn, rfl⟩ := hn
    exact h id n v hn (Option.filter_eq_some_iff.1 hv).1

/-- What is read from the text of a plain manifest is that manifest without the nulls for versions. -/
theorem Plain.parse?_toText_iff (h : m.Plain) {m' : Manifest}
    (hreal : ∀ x, .real x ∈ m.toJson.numbers → (Number.real x).ReadsBack) :
    parse? m.toText = some m' ↔ m.Shallow ∧ m' = m.reloaded := by
  have hnumbers := readsBack_numbers (inRange_numbers h) hreal
  constructor
  · intro hparse
    have hread := ofJson?_of_parse?_toText hnumbers hparse
    rw [ofJson?_toJson h, Option.some.injEq] at hread
    subst hread
    have hnesting : m.reloaded.toJson.nesting ≤ depthLimit := (fits_whole_iff.1 (fits_of_parse? hparse).whole).1
    exact ⟨shallow_reloaded.1 ((shallow_iff (reloaded_plain h)).2 hnesting), rfl⟩
  · rintro ⟨hshallow, rfl⟩
    rw [parse?_toText_of_nesting ((shallow_iff h).1 hshallow) hnumbers, ofJson?_toJson h]

/-- **Built manifests that are written and read.** A manifest that built records are added to is read back, without
the nulls for versions, if no version nests too deep, and its text is refused otherwise. So it is read back as it
was exactly if every version is a value other than null that leaves three levels. -/
theorem parse?_toText_built_iff {start : Manifest} {edits : List Edit}
    (hstart : start = {} ∨ ∃ project adapter, start = ofProject project adapter) (hedits : ∀ e ∈ edits, e.Built)
    (hreal : ∀ x, .real x ∈ (start.editAll edits).toJson.numbers → (Number.real x).ReadsBack) :
    let m := start.editAll edits
    (∀ m', parse? m.toText = some m' ↔ m.Shallow ∧ m' = m.reloaded) ∧
      (parse? m.toText = some m ↔ ∀ (id : NodeId) (n : Node) (v : Json), m.nodes[id]? = some n →
        n.version = some v → v ≠ .null ∧ v.nesting + 3 ≤ depthLimit) := by
  intro m
  have hplain : m.Plain := by
    refine .editAll ?_ hedits
    rcases hstart with rfl | ⟨project, adapter, rfl⟩
    · exact .of_metadata rfl
    · exact .of_metadata rfl
  refine ⟨fun m' => hplain.parse?_toText_iff hreal, ?_⟩
  rw [hplain.parse?_toText_iff hreal, eq_comm (a := m), reloaded_eq_self_iff]
  constructor
  · exact fun h id n v hn hv => ⟨fun hnull => h.2 id n hn (hnull ▸ hv), h.1 id n v hn hv⟩
  · exact fun h => ⟨fun id n v hn hv => (h id n v hn hv).2, fun id n hn hv => (h id n .null hn hv).1 rfl⟩

/-- A model of version one half, in a group, and a metric that depends on it. -/
theorem parse?_toText_built_half :
    let version : Json := .num (.real ⟨false, 4602678819172646912, by decide⟩)
    let model := (((Node.ofName .model "p" "n").withDependsOn ["seed.p.s"]).withGroup "g").withVersion version
    let edits : List Edit :=
      [.addNode model, .addResource ((Resource.ofName .metric "p" "q").withDependsOn [model.uniqueId])]
    let m := (ofProject "p" "duckdb").editAll edits
    (∀ e ∈ edits, e.Built) ∧ m.toJson.numbers ≠ [] ∧
      (∀ x, .real x ∈ m.toJson.numbers → (Number.real x).ReadsBack) ∧ parse? m.toText = some m := by
  intro version model edits m
  have hversion : version.Regular := ⟨by decide +kernel, List.forall_mem_singleton.2 trivial⟩
  have hbuilt : ∀ e ∈ edits, e.Built := by
    refine List.forall_mem_cons.2 ⟨?_, List.forall_mem_singleton.2 ?_⟩
    · exact (((Node.Built.ofName ..).withDependsOn _).withGroup _).withVersion hversion
    · exact (Resource.Built.ofName ..).withDependsOn _
  have hall : ∀ n ∈ m.toJson.numbers, n.ReadsBack := by decide +kernel
  have hreal : ∀ x, .real x ∈ m.toJson.numbers → (Number.real x).ReadsBack := fun x hx => hall _ hx
  exact ⟨hbuilt, by decide +kernel, hreal, ((parse?_toText_built_iff (.inr ⟨_, _, rfl⟩) hbuilt hreal).1 m).2
    ⟨by decide +kernel, by decide +kernel⟩⟩

/-- A model of which one node has a null for its version, and one a number. -/
def halfVersioned : Manifest :=
  (ofProject "p" "duckdb").editAll
    [.addNode ((Node.ofName .model "p" "n").withVersion .null),
      .addNode ((Node.ofName .model "p" "n").withVersion (.num (.whole 1)))]

/-- The null is gone when the manifest is read back, and a name that one node was found by is ambiguous then. -/
theorem reload_changes_resolution :
    ∃ m, parse? halfVersioned.toText = some m ∧ m ≠ halfVersioned ∧
      halfVersioned.resolveRef ⟨"p", "p"⟩ "n" none none = .found "model.p.n.v1" ∧
      m.resolveRef ⟨"p", "p"⟩ "n" none none = .ambiguous ["model.p.n", "model.p.n.v1"] := by
  have hnumbers : ∀ n ∈ halfVersioned.toJson.numbers, n.ReadsBack := by decide +kernel
  have hcandidates :
      (ladder ⟨"p", "p"⟩ none (halfVersioned.reloaded.contenders "n" none)).map Node.candidate =
        [⟨"model.p.n", "p"⟩, ⟨"model.p.n.v1", "p"⟩] := by decide +kernel
  have hsorted : (["model.p.n", "model.p.n.v1"] : List NodeId).mergeSort (· ≤ ·) = ["model.p.n", "model.p.n.v1"] :=
    List.mergeSort_of_pairwise (by decide +kernel)
  refine ⟨halfVersioned.reloaded, ?_, by decide +kernel, by decide +kernel, ?_⟩
  · rw [parse?_toText_of_nesting (by decide +kernel) hnumbers]
    decide +kernel
  · rw [resolveRef_eq, hcandidates]
    exact congrArg Resolution.ambiguous hsorted

end Manifest

end Lineage
