import Lineage.Proofs.Json.Rewrite
import Lineage.Proofs.Manifest.Focus

/-!
# Manifests keep what they were read from

Main result:
* `Manifest.toText_preserves`: the text of a manifest has the value that the manifest was read from, but for
  `Manifest.rewritten`.

`rewritten` says for each record what becomes of its value: fields with a default are filled in, an optional
null is dropped, dependencies are written by name and without other fields, and a type is written as a text.
Fields that have no rule, which are all unknown ones, stay as they are.
-/

namespace Lineage

open Json

/-! ## What becomes of a value -/

/-- A type is written as a text. -/
def ResourceType.rewritten : Json → Json
  | .obj [(name, .null)] => .str name
  | other => other

/-- Sources, documentation blocks and groups change in nothing else. -/
def ResourceType.rewrittenIn : Json → Json := onRecord [("resource_type", ifThere rewritten)]

/-- Two lists by name. A missing one is empty, and nothing stands beside them. -/
def DependsOn.rewritten : Json → Json
  | .arr lists => both lists[0]? lists[1]?
  | .obj fields =>
    let byName : Fields := .ofList fields compare
    both byName["nodes"]? byName["macros"]?
  | other => other
where
  both (nodes macros : Option Json) : Json :=
    .obj [("macros", macros.getD (.arr [])), ("nodes", nodes.getD (.arr []))]

def ArtifactConfig.rewritten : Json → Json :=
  onRecord [("enabled", unlessNull), ("materialized", unlessNull), ("group", unlessNull)]

def Node.rewritten : Json → Json :=
  onRecord
    [("resource_type", ifThere ResourceType.rewritten), ("version", unlessNull), ("latest_version", unlessNull),
      ("group", unlessNull), ("config", filled ArtifactConfig.rewritten),
      ("depends_on", filled DependsOn.rewritten)]

def MacroDef.rewritten : Json → Json :=
  onRecord [("resource_type", ifThere ResourceType.rewritten), ("depends_on", filled DependsOn.rewritten)]

def Resource.rewritten : Json → Json :=
  onRecord
    [("resource_type", ifThere ResourceType.rewritten), ("group", unlessNull),
      ("config", filled ArtifactConfig.rewritten), ("depends_on", filled DependsOn.rewritten)]

def Metadata.rewritten : Json → Json :=
  onRecord
    [("dbt_schema_version", unlessNull), ("dbt_version", unlessNull), ("project_name", unlessNull),
      ("adapter_type", unlessNull), ("generated_at", unlessNull), ("invocation_id", unlessNull)]

def Manifest.rewritten : Json → Json :=
  onRecord
    [("metadata", filled Metadata.rewritten), ("nodes", filled (onEach Node.rewritten)),
      ("sources", filled (onEach ResourceType.rewrittenIn)), ("macros", filled (onEach MacroDef.rewritten)),
      ("docs", filled (onEach ResourceType.rewrittenIn)), ("exposures", filled (onEach Resource.rewritten)),
      ("metrics", filled (onEach Resource.rewritten)), ("groups", filled (onEach ResourceType.rewrittenIn)),
      ("selectors", filled id), ("disabled", filled id),
      ("semantic_models", filled (onEach Resource.rewritten)),
      ("unit_tests", filled (onEach Resource.rewritten)), ("saved_queries", filled (onEach Resource.rewritten))]

/-! ## Records -/

theorem ResourceType.name_of_ofName? {s : String} {t : ResourceType} (h : ofName? s = some t) : t.name = s := by
  unfold ofName? at h
  simpa using List.find?_some h

theorem ResourceType.rewrites : Rewrites ofJson? toJson rewritten := by
  intro j t h
  unfold ofJson? choice at h
  split at h
  · rw [toJson, name_of_ofName? h]
    rfl
  · rename_i name
    rw [toJson, name_of_ofName? h]
    rfl
  · cases h

namespace DependsOn

theorem ofJson?_obj {fields : List (String × Json)} {d : DependsOn} : ofJson? (.obj fields) = some d ↔
    Json.distinct known fields = true ∧
      defaulted "nodes" ids [] fields = some d.nodes ∧ defaulted "macros" ids [] fields = some d.macros := by
  obtain ⟨⟩ := d
  simp [ofJson?, Option.bind_eq_some_iff]

theorem normalize_toJson (d : DependsOn) :
    d.toJson.normalize = .obj [("macros", (strings d.macros).normalize), ("nodes", (strings d.nodes).normalize)] :=
  rfl

theorem normalize_of_defaulted {fields : List (String × Json)} {name : String} {list : List NodeId}
    (h : defaulted name ids [] fields = some list) :
    (strings list).normalize = ((fields.lookup name).map normalize).getD (.arr []) := by
  unfold defaulted at h
  split at h
  · rename_i hmissing
    cases h
    rw [hmissing]
    rfl
  · rename_i value hvalue
    rw [hvalue, text_list_rewrites h]
    rfl

theorem rewrites : Rewrites ofJson? toJson rewritten := by
  intro j d h
  rw [normalize_toJson]
  cases j with
  | obj fields =>
    obtain ⟨hdistinct, hnodes, hmacros⟩ := ofJson?_obj.1 h
    rw [normalize_obj, rewritten, ofList_toList, getElem?_normalizeFields, getElem?_normalizeFields,
      lookup_reverse_of_distinct hdistinct (by decide), lookup_reverse_of_distinct hdistinct (by decide),
      rewritten.both, normalize_of_defaulted hnodes, normalize_of_defaulted hmacros]
  | arr lists =>
    rcases lists with _ | ⟨nodes, _ | ⟨macros, _ | ⟨third, more⟩⟩⟩
    · cases h
      rfl
    · obtain ⟨nodeIds, hnodes, h⟩ := Option.bind_eq_some_iff.1 h
      cases h
      rw [text_list_rewrites hnodes]
      rfl
    · obtain ⟨nodeIds, hnodes, h⟩ := Option.bind_eq_some_iff.1 h
      obtain ⟨macroIds, hmacros, h⟩ := Option.bind_eq_some_iff.1 h
      cases h
      rw [text_list_rewrites hnodes, text_list_rewrites hmacros]
      rfl
    · cases h
  | _ => cases h

end DependsOn

theorem ArtifactConfig.rewrites : Rewrites ofJson? toJson rewritten := by
  intro j c h
  cases j with
  | obj source =>
    obtain ⟨hdistinct, henabled, hmaterialized, hgroup, hextra⟩ := ofJson?_obj.1 h
    obtain ⟨hwritten, -, -, -, hothers⟩ := ofJson?_obj.1 (codec.reread h)
    refine normalize_written (by decide) (by decide) hdistinct hwritten (hothers.trans hextra.symm) ?_
    simp only [known, List.forall_mem_cons]
    refine ⟨flag_rewrites.optional henabled ?_, text_rewrites.optional hmaterialized ?_,
      text_rewrites.optional hgroup ?_, List.forall_mem_nil _⟩
    all_goals simp [List.lookup_append, lookup_optionalField, ← hextra, lookup_others, known]
  | _ => cases h

theorem Node.rewrites : Rewrites ofJson? toJson rewritten := by
  intro j n h
  cases j with
  | obj source =>
    obtain ⟨hdistinct, hid, hname, htype, hpackage, hversion, hlatest, hgroup, hconfig, hdepends,
      hextra⟩ := ofJson?_obj.1 h
    obtain ⟨hwritten, -, -, -, -, -, -, -, -, -, hothers⟩ := ofJson?_obj.1 (codec.reread h)
    refine normalize_written (by decide) (by decide) hdistinct hwritten (hothers.trans hextra.symm) ?_
    simp only [known, List.forall_mem_cons]
    refine ⟨text_rewrites.kept hid ?_, text_rewrites.kept hname ?_, ResourceType.rewrites.required htype ?_,
      text_rewrites.kept hpackage ?_, any_rewrites.optional hversion ?_, any_rewrites.optional hlatest ?_,
      text_rewrites.optional hgroup ?_, ArtifactConfig.rewrites.defaulted rfl hconfig ?_,
      DependsOn.rewrites.defaulted rfl hdepends ?_, List.forall_mem_nil _⟩
    all_goals simp [List.lookup_append, List.lookup_cons, lookup_optionalField, ← hextra, lookup_others, known]
  | _ => cases h

theorem Source.rewrites : Rewrites ofJson? toJson ResourceType.rewrittenIn := by
  intro j s h
  cases j with
  | obj source =>
    obtain ⟨hdistinct, hid, hsource, hname, htype, hpackage, hextra⟩ := ofJson?_obj.1 h
    obtain ⟨hwritten, -, -, -, -, -, hothers⟩ := ofJson?_obj.1 (codec.reread h)
    refine normalize_written (by decide) (by decide) hdistinct hwritten (hothers.trans hextra.symm) ?_
    simp only [known, List.forall_mem_cons]
    refine ⟨text_rewrites.kept hid ?_, text_rewrites.kept hsource ?_, text_rewrites.kept hname ?_,
      ResourceType.rewrites.required htype ?_, text_rewrites.kept hpackage ?_, List.forall_mem_nil _⟩
    all_goals simp [List.lookup_cons]
  | _ => cases h

theorem MacroDef.rewrites : Rewrites ofJson? toJson rewritten := by
  intro j m h
  cases j with
  | obj source =>
    obtain ⟨hdistinct, hid, hname, htype, hpackage, hdepends, hextra⟩ := ofJson?_obj.1 h
    obtain ⟨hwritten, -, -, -, -, -, hothers⟩ := ofJson?_obj.1 (codec.reread h)
    refine normalize_written (by decide) (by decide) hdistinct hwritten (hothers.trans hextra.symm) ?_
    simp only [known, List.forall_mem_cons]
    refine ⟨text_rewrites.kept hid ?_, text_rewrites.kept hname ?_, ResourceType.rewrites.required htype ?_,
      text_rewrites.kept hpackage ?_, DependsOn.rewrites.defaulted rfl hdepends ?_, List.forall_mem_nil _⟩
    all_goals simp [List.lookup_cons]
  | _ => cases h

theorem Doc.rewrites : Rewrites ofJson? toJson ResourceType.rewrittenIn := by
  intro j d h
  cases j with
  | obj source =>
    obtain ⟨hdistinct, hid, hname, htype, hpackage, hextra⟩ := ofJson?_obj.1 h
    obtain ⟨hwritten, -, -, -, -, hothers⟩ := ofJson?_obj.1 (codec.reread h)
    refine normalize_written (by decide) (by decide) hdistinct hwritten (hothers.trans hextra.symm) ?_
    simp only [known, List.forall_mem_cons]
    refine ⟨text_rewrites.kept hid ?_, text_rewrites.kept hname ?_, ResourceType.rewrites.required htype ?_,
      text_rewrites.kept hpackage ?_, List.forall_mem_nil _⟩
    all_goals simp [List.lookup_cons]
  | _ => cases h

theorem Group.rewrites : Rewrites ofJson? toJson ResourceType.rewrittenIn := by
  intro j g h
  cases j with
  | obj source =>
    obtain ⟨hdistinct, hid, hname, htype, hpackage, hextra⟩ := ofJson?_obj.1 h
    obtain ⟨hwritten, -, -, -, -, hothers⟩ := ofJson?_obj.1 (codec.reread h)
    refine normalize_written (by decide) (by decide) hdistinct hwritten (hothers.trans hextra.symm) ?_
    simp only [known, List.forall_mem_cons]
    refine ⟨text_rewrites.kept hid ?_, text_rewrites.kept hname ?_, ResourceType.rewrites.required htype ?_,
      text_rewrites.kept hpackage ?_, List.forall_mem_nil _⟩
    all_goals simp [List.lookup_cons]
  | _ => cases h

theorem Resource.rewrites : Rewrites ofJson? toJson rewritten := by
  intro j r h
  cases j with
  | obj source =>
    obtain ⟨hdistinct, hid, hname, htype, hpackage, hgroup, hconfig, hdepends, hextra⟩ := ofJson?_obj.1 h
    obtain ⟨hwritten, -, -, -, -, -, -, -, hothers⟩ := ofJson?_obj.1 (codec.reread h)
    refine normalize_written (by decide) (by decide) hdistinct hwritten (hothers.trans hextra.symm) ?_
    simp only [known, List.forall_mem_cons]
    refine ⟨text_rewrites.kept hid ?_, text_rewrites.kept hname ?_, ResourceType.rewrites.required htype ?_,
      text_rewrites.kept hpackage ?_, text_rewrites.optional hgroup ?_,
      ArtifactConfig.rewrites.defaulted rfl hconfig ?_, DependsOn.rewrites.defaulted rfl hdepends ?_, List.forall_mem_nil _⟩
    all_goals simp [List.lookup_append, List.lookup_cons, lookup_optionalField, ← hextra, lookup_others, known]
  | _ => cases h

theorem Metadata.rewrites : Rewrites ofJson? toJson rewritten := by
  intro j m h
  cases j with
  | obj source =>
    obtain ⟨hdistinct, hschema, htool, hproject, hadapter, hgenerated, hinvocation, hextra⟩ := ofJson?_obj.1 h
    obtain ⟨hwritten, -, -, -, -, -, -, hothers⟩ := ofJson?_obj.1 (codec.reread h)
    refine normalize_written (by decide) (by decide) hdistinct hwritten (hothers.trans hextra.symm) ?_
    simp only [known, List.forall_mem_cons]
    refine ⟨text_rewrites.optional hschema ?_, text_rewrites.optional htool ?_, text_rewrites.optional hproject ?_,
      text_rewrites.optional hadapter ?_, text_rewrites.optional hgenerated ?_,
      text_rewrites.optional hinvocation ?_, List.forall_mem_nil _⟩
    all_goals simp [List.lookup_append, lookup_optionalField, ← hextra, lookup_others, known]
  | _ => cases h

/-! ## Manifests -/

namespace Manifest

theorem rewrites : Rewrites ofJson? toJson rewritten := by
  intro j m h
  cases j with
  | obj source =>
    obtain ⟨hdistinct, hmetadata, hnodes, hsources, hmacros, hdocs, hexposures, hmetrics, hgroups, hselectors,
      hdisabled, hsemantic, htests, hqueries, hextra⟩ := ofJson?_obj.1 h
    obtain ⟨hwritten, -, -, -, -, -, -, -, -, -, -, -, -, -, hothers⟩ := ofJson?_obj.1 (codec.reread h)
    refine normalize_written (by decide) (by decide) hdistinct hwritten (hothers.trans hextra.symm) ?_
    simp only [known, List.forall_mem_cons]
    refine ⟨Metadata.rewrites.defaulted rfl hmetadata ?_, Node.rewrites.mapOf.defaulted rfl hnodes ?_,
      Source.rewrites.mapOf.defaulted rfl hsources ?_, MacroDef.rewrites.mapOf.defaulted rfl hmacros ?_,
      Doc.rewrites.mapOf.defaulted rfl hdocs ?_, Resource.rewrites.mapOf.defaulted rfl hexposures ?_,
      Resource.rewrites.mapOf.defaulted rfl hmetrics ?_, Group.rewrites.mapOf.defaulted rfl hgroups ?_,
      any_rewrites.mapOf_id.defaulted rfl hselectors ?_, any_list_rewrites.mapOf_id.defaulted rfl hdisabled ?_,
      Resource.rewrites.mapOf.defaulted rfl hsemantic ?_, Resource.rewrites.mapOf.defaulted rfl htests ?_,
      Resource.rewrites.mapOf.defaulted rfl hqueries ?_, List.forall_mem_nil _⟩
    all_goals simp [List.lookup_cons]
  | _ => cases h

/-- What is written for a manifest is read back from its text. -/
theorem parse?_toText_eq {text : String} {m : Manifest} (h : parse? text = some m)
    (hreal : ∀ x, .real x ∈ m.toJson.numbers → (Number.real x).ReadsBack) :
    Json.parse? m.toText = some m.toJson := by
  obtain ⟨hdepth, hrange⟩ := fits_whole_iff.1 (fits_of_parse? h).whole
  exact parse?_pretty hdepth (readsBack_numbers hrange hreal)

/-- **Nothing is lost.** If the doubles in a manifest are read back from their shortest decimals, the text that
it is written as has the value that it was read from, but for the changes of `rewritten`. That value is what the
focus keeps of the first text, and where all of that text can be read, even in fields that are skipped, it is
the value of the text. -/
theorem toText_preserves {text : String} {m : Manifest} (h : parse? text = some m)
    (hreal : ∀ x, .real x ∈ m.toJson.numbers → (Number.real x).ReadsBack) :
    (∃ v, parseFor? focus text = some v ∧
        (Json.parse? m.toText).map normalize = some (rewritten v.normalize)) ∧
      ∀ v, Json.parse? text = some v →
        (Json.parse? m.toText).map normalize = some (rewritten v.normalize) := by
  have htext : Json.parse? m.toText = some m.toJson := parse?_toText_eq h hreal
  have hvalue : ∀ v, ofJson? v = some m →
      (Json.parse? m.toText).map normalize = some (rewritten v.normalize) := by
    intro v hv
    rw [htext, Option.map_some, rewrites hv]
  constructor
  · obtain ⟨v, hv, hm⟩ := Option.bind_eq_some_iff.1 h
    exact ⟨v, hv, hvalue v hm⟩
  · intro v hv
    rw [parse?_of_parse? hv] at h
    exact hvalue v h

/-- An optional null, a type as an object, another field beside the dependencies: all of them are changed. -/
theorem toText_preserves_forms :
    let text := "\x7b\"metadata\":\x7b\"dbt_version\":null\x7d,\"macros\":\x7b\"m\":\x7b\"unique_id\":\"m\","
      ++ "\"name\":\"m\",\"package_name\":\"p\",\"resource_type\":\x7b\"macro\":null\x7d,"
      ++ "\"depends_on\":\x7b\"x\":1\x7d,\"w\":0.5\x7d\x7d\x7d"
    ∃ m v, parse? text = some m ∧ Json.parse? text = some v ∧ rewritten v.normalize ≠ v.normalize ∧
      m.toJson.numbers ≠ [] ∧ (∀ x, .real x ∈ m.toJson.numbers → (Number.real x).ReadsBack) ∧
      (Json.parse? m.toText).map normalize = some (rewritten v.normalize) := by
  intro text
  have heval : ((parse? text).any fun m =>
      !m.toJson.numbers.isEmpty && m.toJson.numbers.all fun n => n.ReadsBack) = true := by
    decide +kernel
  have hchanged : ((Json.parse? text).any fun v => rewritten v.normalize != v.normalize) = true := by
    decide +kernel
  obtain ⟨m, hm, hnumbers⟩ := (Option.any_eq_true _ _).1 heval
  obtain ⟨v, hv, hne⟩ := (Option.any_eq_true _ _).1 hchanged
  obtain ⟨hnonempty, hall⟩ := Bool.and_eq_true_iff.1 hnumbers
  have hreal : ∀ x, .real x ∈ m.toJson.numbers → (Number.real x).ReadsBack := fun x hx =>
    of_decide_eq_true (List.all_eq_true.1 hall _ hx)
  exact ⟨m, v, hm, hv, bne_iff_ne.1 hne, by simpa using hnonempty, hreal, (toText_preserves hm hreal).2 v hv⟩

/-- Nulls and other fields beside the dependencies go, defaults come, and the rest stays. -/
example :
    Node.rewritten
        (.obj [("depends_on", .obj [("other", .bool true)]), ("group", .null),
          ("resource_type", .obj [("model", .null)]), ("weight", .null)]) =
      .obj [("config", .obj []), ("depends_on", .obj [("macros", .arr []), ("nodes", .arr [])]),
        ("resource_type", .str "model"), ("weight", .null)] := by
  decide +kernel

end Manifest

end Lineage
