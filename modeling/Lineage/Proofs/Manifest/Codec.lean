import Lineage.Manifest.Basic
import Lineage.Proofs.Json.Codec

/-!
# Records are written as they were read

For each record, its reader in terms of the fields it reads, and from that its `Json.Codec`.
-/

namespace Lineage

open Json

theorem ResourceType.ofName?_name (t : ResourceType) : ofName? t.name = some t := by
  cases t <;> decide

theorem ResourceType.codec : Codec ResourceType.ofJson? ResourceType.toJson .whole 0 :=
  choice_codec ResourceType.ofName?_name

namespace DependsOn

theorem ids_strings (ids : List NodeId) : DependsOn.ids (strings ids) = some ids :=
  mapM_map_eq_some fun _ _ => rfl

theorem ofJson?_toJson (d : DependsOn) : ofJson? d.toJson = some d := by
  have hdistinct : Json.distinct known [("nodes", strings d.nodes), ("macros", strings d.macros)] = true := rfl
  rw [toJson, ofJson?, if_pos hdistinct]
  simp [defaulted, List.lookup_cons, ids_strings]

theorem fits_toJson (d : DependsOn) {p : Number → Prop} {depth : Nat} (hle : 2 ≤ depth) :
    Fits p focus depth d.toJson := by
  obtain ⟨depth, rfl⟩ : ∃ less, depth = less + 2 := ⟨depth - 2, by omega⟩
  have hstrings : ∀ ids : List NodeId, Fits p .whole (depth + 1) (strings ids) := by
    intro ids
    refine .arr_of_mem Focus.whole_kept (fun _ => rfl) fun item hitem => ?_
    obtain ⟨s, -, rfl⟩ := List.mem_map.1 hitem
    exact .str Focus.whole_kept
  refine .obj (Focus.record_kept _ _) fun name value hmem => ?_
  simp at hmem
  rcases hmem with ⟨rfl, rfl⟩ | ⟨rfl, rfl⟩
  · exact hstrings _
  · exact hstrings _

/-- Whatever the dependencies were read from, two lists of texts are written. -/
theorem codec : Codec ofJson? toJson focus 2 where
  reread _ := ofJson?_toJson _
  fits _ _ := fits_toJson _
  null _ h := by
    cases h

end DependsOn

namespace ArtifactConfig

theorem ofJson?_obj {fields : List (String × Json)} {c : ArtifactConfig} : ofJson? (.obj fields) = some c ↔
    Json.distinct known fields = true ∧
      optional "enabled" flag fields = some c.enabled ∧
      optional "materialized" text fields = some c.materialized ∧
      optional "group" text fields = some c.group ∧
      others known fields = c.extra := by
  obtain ⟨⟩ := c
  simp [ofJson?, Option.bind_eq_some_iff]

theorem codec : Codec ofJson? toJson .whole 1 := by
  refine .of_written known nofun (fun _ _ => rfl) fun {j c} h => ?_
  cases j with
  | obj source =>
    obtain ⟨-, henabled, hmaterialized, hgroup, hextra⟩ := ofJson?_obj.1 h
    refine ⟨source, _, rfl, by rw [toJson, ← hextra], ?written, ofJson?_obj.2
      ⟨Written.distinct ?written (by decide), flag_codec.optional_eq henabled ?_,
      text_codec.optional_eq hmaterialized ?_, text_codec.optional_eq hgroup ?_,
      (Written.others_eq ?written).trans hextra⟩⟩
    case written =>
      simp only [List.append_assoc]
      refine .optionalField flag_codec henabled (Nat.zero_le _) ?_
      refine .optionalField text_codec hmaterialized (Nat.zero_le _) ?_
      refine .optionalField text_codec hgroup (Nat.zero_le _) ?_
      exact .others_only
    all_goals simp [List.lookup_append, lookup_optionalField, lookup_others, known]
  | _ => cases h

end ArtifactConfig

/-! ## Artifacts -/

section Artifacts

variable {source : List (String × Json)} {name : String}

theorem ArtifactConfig.readFrom {c : ArtifactConfig} (h : defaulted name ofJson? {} source = some c) :
    ReadFrom ofJson? 1 source c :=
  readFrom_defaulted rfl h

theorem DependsOn.readFrom {d : DependsOn} (h : defaulted name ofJson? {} source = some d) :
    ReadFrom ofJson? 2 source d :=
  readFrom_defaulted rfl h

end Artifacts

namespace Node

theorem ofJson?_obj {fields : List (String × Json)} {n : Node} : ofJson? (.obj fields) = some n ↔
    Json.distinct known fields = true ∧
      required "unique_id" text fields = some n.uniqueId ∧
      required "name" text fields = some n.name ∧
      required "resource_type" ResourceType.ofJson? fields = some n.resourceType ∧
      required "package_name" text fields = some n.packageName ∧
      optional "version" any fields = some n.version ∧
      optional "latest_version" any fields = some n.latestVersion ∧
      optional "group" text fields = some n.group ∧
      defaulted "config" ArtifactConfig.ofJson? {} fields = some n.config ∧
      defaulted "depends_on" DependsOn.ofJson? {} fields = some n.dependsOn ∧
      others known fields = n.extra := by
  obtain ⟨⟩ := n
  simp [ofJson?, Option.bind_eq_some_iff]

theorem codec : Codec ofJson? toJson focus 3 := by
  refine .of_written known nofun (Focus.field_of_unknown (by decide)) fun {j n} h => ?_
  cases j with
  | obj source =>
    obtain ⟨-, hid, hname, htype, hpackage, hversion, hlatest, hgroup, hconfig, hdepends,
      hextra⟩ := ofJson?_obj.1 h
    have hconfig := ArtifactConfig.readFrom hconfig
    have hdepends := DependsOn.readFrom hdepends
    refine ⟨source, _, rfl, by rw [toJson, ← hextra], ?written, ofJson?_obj.2
      ⟨Written.distinct ?written (by decide), text_codec.required_eq hid ?_, text_codec.required_eq hname ?_,
      ResourceType.codec.required_eq htype ?_, text_codec.required_eq hpackage ?_,
      any_codec.optional_eq hversion ?_, any_codec.optional_eq hlatest ?_, text_codec.optional_eq hgroup ?_,
      ArtifactConfig.codec.defaulted_eq hconfig ?_, DependsOn.codec.defaulted_eq hdepends ?_,
      (Written.others_eq ?written).trans hextra⟩⟩
    case written =>
      simp only [List.append_assoc, List.cons_append, List.nil_append]
      refine .field text_codec (readFrom_required hid) (Nat.zero_le _) ?_
      refine .field text_codec (readFrom_required hname) (Nat.zero_le _) ?_
      refine .field ResourceType.codec (readFrom_required htype) (Nat.zero_le _) ?_
      refine .field text_codec (readFrom_required hpackage) (Nat.zero_le _) ?_
      refine .optionalField any_codec hversion (Nat.zero_le _) ?_
      refine .optionalField any_codec hlatest (Nat.zero_le _) ?_
      refine .optionalField text_codec hgroup (Nat.zero_le _) ?_
      refine .field ArtifactConfig.codec hconfig (by decide) ?_
      refine .field DependsOn.codec hdepends (by decide) ?_
      exact .others_only
    all_goals simp [List.lookup_append, List.lookup_cons, lookup_optionalField, lookup_others, known]
  | _ => cases h

end Node

namespace Source

theorem ofJson?_obj {fields : List (String × Json)} {s : Source} : ofJson? (.obj fields) = some s ↔
    Json.distinct known fields = true ∧
      required "unique_id" text fields = some s.uniqueId ∧
      required "source_name" text fields = some s.sourceName ∧
      required "name" text fields = some s.name ∧
      required "resource_type" ResourceType.ofJson? fields = some s.resourceType ∧
      required "package_name" text fields = some s.packageName ∧
      others known fields = s.extra := by
  obtain ⟨⟩ := s
  simp [ofJson?, Option.bind_eq_some_iff]

theorem codec : Codec ofJson? toJson .whole 1 := by
  refine .of_written known nofun (fun _ _ => rfl) fun {j s} h => ?_
  cases j with
  | obj source =>
    obtain ⟨-, hid, hsource, hname, htype, hpackage, hextra⟩ := ofJson?_obj.1 h
    refine ⟨source, _, rfl, by rw [toJson, ← hextra], ?written, ofJson?_obj.2
      ⟨Written.distinct ?written (by decide), text_codec.required_eq hid ?_,
      text_codec.required_eq hsource ?_, text_codec.required_eq hname ?_,
      ResourceType.codec.required_eq htype ?_, text_codec.required_eq hpackage ?_,
      (Written.others_eq ?written).trans hextra⟩⟩
    case written =>
      simp only [List.cons_append, List.nil_append]
      refine .field text_codec (readFrom_required hid) (Nat.zero_le _) ?_
      refine .field text_codec (readFrom_required hsource) (Nat.zero_le _) ?_
      refine .field text_codec (readFrom_required hname) (Nat.zero_le _) ?_
      refine .field ResourceType.codec (readFrom_required htype) (Nat.zero_le _) ?_
      refine .field text_codec (readFrom_required hpackage) (Nat.zero_le _) ?_
      exact .others_only
    all_goals simp [List.lookup_cons]
  | _ => cases h

end Source

namespace MacroDef

theorem ofJson?_obj {fields : List (String × Json)} {m : MacroDef} : ofJson? (.obj fields) = some m ↔
    Json.distinct known fields = true ∧
      required "unique_id" text fields = some m.uniqueId ∧
      required "name" text fields = some m.name ∧
      required "resource_type" ResourceType.ofJson? fields = some m.resourceType ∧
      required "package_name" text fields = some m.packageName ∧
      defaulted "depends_on" DependsOn.ofJson? {} fields = some m.dependsOn ∧
      others known fields = m.extra := by
  obtain ⟨⟩ := m
  simp [ofJson?, Option.bind_eq_some_iff]

theorem codec : Codec ofJson? toJson focus 3 := by
  refine .of_written known nofun (Focus.field_of_unknown (by decide)) fun {j m} h => ?_
  cases j with
  | obj source =>
    obtain ⟨-, hid, hname, htype, hpackage, hdepends, hextra⟩ := ofJson?_obj.1 h
    have hdepends := DependsOn.readFrom hdepends
    refine ⟨source, _, rfl, by rw [toJson, ← hextra], ?written, ofJson?_obj.2
      ⟨Written.distinct ?written (by decide), text_codec.required_eq hid ?_, text_codec.required_eq hname ?_,
      ResourceType.codec.required_eq htype ?_, text_codec.required_eq hpackage ?_,
      DependsOn.codec.defaulted_eq hdepends ?_, (Written.others_eq ?written).trans hextra⟩⟩
    case written =>
      simp only [List.cons_append, List.nil_append]
      refine .field text_codec (readFrom_required hid) (Nat.zero_le _) ?_
      refine .field text_codec (readFrom_required hname) (Nat.zero_le _) ?_
      refine .field ResourceType.codec (readFrom_required htype) (Nat.zero_le _) ?_
      refine .field text_codec (readFrom_required hpackage) (Nat.zero_le _) ?_
      refine .field DependsOn.codec hdepends (by decide) ?_
      exact .others_only
    all_goals simp [List.lookup_cons]
  | _ => cases h

end MacroDef

namespace Doc

theorem ofJson?_obj {fields : List (String × Json)} {d : Doc} : ofJson? (.obj fields) = some d ↔
    Json.distinct known fields = true ∧
      required "unique_id" text fields = some d.uniqueId ∧
      required "name" text fields = some d.name ∧
      required "resource_type" ResourceType.ofJson? fields = some d.resourceType ∧
      required "package_name" text fields = some d.packageName ∧
      others known fields = d.extra := by
  obtain ⟨⟩ := d
  simp [ofJson?, Option.bind_eq_some_iff]

theorem codec : Codec ofJson? toJson .whole 1 := by
  refine .of_written known nofun (fun _ _ => rfl) fun {j d} h => ?_
  cases j with
  | obj source =>
    obtain ⟨-, hid, hname, htype, hpackage, hextra⟩ := ofJson?_obj.1 h
    refine ⟨source, _, rfl, by rw [toJson, ← hextra], ?written, ofJson?_obj.2
      ⟨Written.distinct ?written (by decide), text_codec.required_eq hid ?_, text_codec.required_eq hname ?_,
      ResourceType.codec.required_eq htype ?_, text_codec.required_eq hpackage ?_,
      (Written.others_eq ?written).trans hextra⟩⟩
    case written =>
      simp only [List.cons_append, List.nil_append]
      refine .field text_codec (readFrom_required hid) (Nat.zero_le _) ?_
      refine .field text_codec (readFrom_required hname) (Nat.zero_le _) ?_
      refine .field ResourceType.codec (readFrom_required htype) (Nat.zero_le _) ?_
      refine .field text_codec (readFrom_required hpackage) (Nat.zero_le _) ?_
      exact .others_only
    all_goals simp [List.lookup_cons]
  | _ => cases h

end Doc

namespace Group

theorem ofJson?_obj {fields : List (String × Json)} {g : Group} : ofJson? (.obj fields) = some g ↔
    Json.distinct known fields = true ∧
      required "unique_id" text fields = some g.uniqueId ∧
      required "name" text fields = some g.name ∧
      required "resource_type" ResourceType.ofJson? fields = some g.resourceType ∧
      required "package_name" text fields = some g.packageName ∧
      others known fields = g.extra := by
  obtain ⟨⟩ := g
  simp [ofJson?, Option.bind_eq_some_iff]

theorem codec : Codec ofJson? toJson .whole 1 := by
  refine .of_written known nofun (fun _ _ => rfl) fun {j g} h => ?_
  cases j with
  | obj source =>
    obtain ⟨-, hid, hname, htype, hpackage, hextra⟩ := ofJson?_obj.1 h
    refine ⟨source, _, rfl, by rw [toJson, ← hextra], ?written, ofJson?_obj.2
      ⟨Written.distinct ?written (by decide), text_codec.required_eq hid ?_, text_codec.required_eq hname ?_,
      ResourceType.codec.required_eq htype ?_, text_codec.required_eq hpackage ?_,
      (Written.others_eq ?written).trans hextra⟩⟩
    case written =>
      simp only [List.cons_append, List.nil_append]
      refine .field text_codec (readFrom_required hid) (Nat.zero_le _) ?_
      refine .field text_codec (readFrom_required hname) (Nat.zero_le _) ?_
      refine .field ResourceType.codec (readFrom_required htype) (Nat.zero_le _) ?_
      refine .field text_codec (readFrom_required hpackage) (Nat.zero_le _) ?_
      exact .others_only
    all_goals simp [List.lookup_cons]
  | _ => cases h

end Group

namespace Resource

theorem ofJson?_obj {fields : List (String × Json)} {r : Resource} : ofJson? (.obj fields) = some r ↔
    Json.distinct known fields = true ∧
      required "unique_id" text fields = some r.uniqueId ∧
      required "name" text fields = some r.name ∧
      required "resource_type" ResourceType.ofJson? fields = some r.resourceType ∧
      required "package_name" text fields = some r.packageName ∧
      optional "group" text fields = some r.group ∧
      defaulted "config" ArtifactConfig.ofJson? {} fields = some r.config ∧
      defaulted "depends_on" DependsOn.ofJson? {} fields = some r.dependsOn ∧
      others known fields = r.extra := by
  obtain ⟨⟩ := r
  simp [ofJson?, Option.bind_eq_some_iff]

theorem codec : Codec ofJson? toJson focus 3 := by
  refine .of_written known nofun (Focus.field_of_unknown (by decide)) fun {j r} h => ?_
  cases j with
  | obj source =>
    obtain ⟨-, hid, hname, htype, hpackage, hgroup, hconfig, hdepends, hextra⟩ := ofJson?_obj.1 h
    have hconfig := ArtifactConfig.readFrom hconfig
    have hdepends := DependsOn.readFrom hdepends
    refine ⟨source, _, rfl, by rw [toJson, ← hextra], ?written, ofJson?_obj.2
      ⟨Written.distinct ?written (by decide), text_codec.required_eq hid ?_, text_codec.required_eq hname ?_,
      ResourceType.codec.required_eq htype ?_, text_codec.required_eq hpackage ?_,
      text_codec.optional_eq hgroup ?_, ArtifactConfig.codec.defaulted_eq hconfig ?_,
      DependsOn.codec.defaulted_eq hdepends ?_, (Written.others_eq ?written).trans hextra⟩⟩
    case written =>
      simp only [List.append_assoc, List.cons_append, List.nil_append]
      refine .field text_codec (readFrom_required hid) (Nat.zero_le _) ?_
      refine .field text_codec (readFrom_required hname) (Nat.zero_le _) ?_
      refine .field ResourceType.codec (readFrom_required htype) (Nat.zero_le _) ?_
      refine .field text_codec (readFrom_required hpackage) (Nat.zero_le _) ?_
      refine .optionalField text_codec hgroup (Nat.zero_le _) ?_
      refine .field ArtifactConfig.codec hconfig (by decide) ?_
      refine .field DependsOn.codec hdepends (by decide) ?_
      exact .others_only
    all_goals simp [List.lookup_append, List.lookup_cons, lookup_optionalField, lookup_others, known]
  | _ => cases h

end Resource

namespace Metadata

theorem ofJson?_obj {fields : List (String × Json)} {m : Metadata} : ofJson? (.obj fields) = some m ↔
    Json.distinct known fields = true ∧
      optional "dbt_schema_version" text fields = some m.schemaVersion ∧
      optional "dbt_version" text fields = some m.toolVersion ∧
      optional "project_name" text fields = some m.projectName ∧
      optional "adapter_type" text fields = some m.adapterType ∧
      optional "generated_at" text fields = some m.generatedAt ∧
      optional "invocation_id" text fields = some m.invocationId ∧
      others known fields = m.extra := by
  obtain ⟨⟩ := m
  simp [ofJson?, Option.bind_eq_some_iff]

theorem codec : Codec ofJson? toJson .whole 1 := by
  refine .of_written known nofun (fun _ _ => rfl) fun {j m} h => ?_
  cases j with
  | obj source =>
    obtain ⟨-, hschema, htool, hproject, hadapter, hgenerated, hinvocation, hextra⟩ := ofJson?_obj.1 h
    refine ⟨source, _, rfl, by rw [toJson, ← hextra], ?written, ofJson?_obj.2
      ⟨Written.distinct ?written (by decide), text_codec.optional_eq hschema ?_,
      text_codec.optional_eq htool ?_, text_codec.optional_eq hproject ?_, text_codec.optional_eq hadapter ?_,
      text_codec.optional_eq hgenerated ?_, text_codec.optional_eq hinvocation ?_,
      (Written.others_eq ?written).trans hextra⟩⟩
    case written =>
      simp only [List.append_assoc]
      refine .optionalField text_codec hschema (Nat.zero_le _) ?_
      refine .optionalField text_codec htool (Nat.zero_le _) ?_
      refine .optionalField text_codec hproject (Nat.zero_le _) ?_
      refine .optionalField text_codec hadapter (Nat.zero_le _) ?_
      refine .optionalField text_codec hgenerated (Nat.zero_le _) ?_
      refine .optionalField text_codec hinvocation (Nat.zero_le _) ?_
      exact .others_only
    all_goals simp [List.lookup_append, lookup_optionalField, lookup_others, known]
  | _ => cases h

end Metadata

end Lineage
