import Lineage.Proofs.Json.ReadBack
import Lineage.Proofs.Json.Reader
import Lineage.Proofs.Manifest.Codec

/-!
# Manifests survive being written and read

Main result:
* `Manifest.parse?_toText`: every manifest that was read is read again from the text it is written as.

A manifest that was read comes from a JSON value that nests no deeper than the reader allows. What is written
for it nests no deeper, and its records read it back (`Manifest.codec`); so does the text of that value
(`Json.parseFor?_pretty`).
-/

namespace Lineage

open Json

namespace Manifest

/-! ## Collections -/

theorem nodes_codec : Codec (mapOf Node.ofJson?) (ofMap Node.toJson) (.each Node.focus) 4 :=
  mapOf_codec Node.codec nofun fun _ => rfl

theorem sources_codec : Codec (mapOf Source.ofJson?) (ofMap Source.toJson) .whole 2 :=
  mapOf_codec Source.codec nofun fun _ => rfl

theorem macros_codec : Codec (mapOf MacroDef.ofJson?) (ofMap MacroDef.toJson) (.each MacroDef.focus) 4 :=
  mapOf_codec MacroDef.codec nofun fun _ => rfl

theorem docs_codec : Codec (mapOf Doc.ofJson?) (ofMap Doc.toJson) .whole 2 :=
  mapOf_codec Doc.codec nofun fun _ => rfl

theorem groups_codec : Codec (mapOf Group.ofJson?) (ofMap Group.toJson) .whole 2 :=
  mapOf_codec Group.codec nofun fun _ => rfl

theorem resources_codec : Codec (mapOf Resource.ofJson?) (ofMap Resource.toJson) (.each Resource.focus) 4 :=
  mapOf_codec Resource.codec nofun fun _ => rfl

theorem selectors_codec : Codec (mapOf any) (ofMap id) .whole 1 :=
  mapOf_codec any_codec nofun fun _ => rfl

theorem disabled_codec : Codec (mapOf (listOf any)) (ofMap .arr) .whole 2 := by
  have hlists : Codec (listOf any) .arr .whole 1 := by
    have h := listOf_codec any_codec
    simp only [List.map_id] at h
    exact h
  exact mapOf_codec hlists nofun fun _ => rfl

/-- A collection that is missing is empty. -/
theorem readFrom_collection {α : Type} {read : Json → Option α} {name : String} {levels : Nat}
    {source : List (String × Json)} {m : Collection α} (h : defaulted name (mapOf read) ∅ source = some m) :
    ReadFrom (mapOf read) (levels + 1) source m :=
  readFrom_defaulted rfl h

/-! ## The manifest -/

theorem ofJson?_obj {fields : List (String × Json)} {m : Manifest} : ofJson? (.obj fields) = some m ↔
    Json.distinct known fields = true ∧
      defaulted "metadata" Metadata.ofJson? {} fields = some m.metadata ∧
      defaulted "nodes" (mapOf Node.ofJson?) ∅ fields = some m.nodes ∧
      defaulted "sources" (mapOf Source.ofJson?) ∅ fields = some m.sources ∧
      defaulted "macros" (mapOf MacroDef.ofJson?) ∅ fields = some m.macros ∧
      defaulted "docs" (mapOf Doc.ofJson?) ∅ fields = some m.docs ∧
      defaulted "exposures" (mapOf Resource.ofJson?) ∅ fields = some m.exposures ∧
      defaulted "metrics" (mapOf Resource.ofJson?) ∅ fields = some m.metrics ∧
      defaulted "groups" (mapOf Group.ofJson?) ∅ fields = some m.groups ∧
      defaulted "selectors" (mapOf any) ∅ fields = some m.selectors ∧
      defaulted "disabled" (mapOf (listOf any)) ∅ fields = some m.disabled ∧
      defaulted "semantic_models" (mapOf Resource.ofJson?) ∅ fields = some m.semanticModels ∧
      defaulted "unit_tests" (mapOf Resource.ofJson?) ∅ fields = some m.unitTests ∧
      defaulted "saved_queries" (mapOf Resource.ofJson?) ∅ fields = some m.savedQueries ∧
      others known fields = m.extra := by
  constructor
  · intro h
    obtain ⟨hdistinct, h⟩ := Option.ite_none_right_eq_some.1 h
    obtain ⟨_, hmetadata, h⟩ := Option.bind_eq_some_iff.1 h
    obtain ⟨_, hnodes, h⟩ := Option.bind_eq_some_iff.1 h
    obtain ⟨_, hsources, h⟩ := Option.bind_eq_some_iff.1 h
    obtain ⟨_, hmacros, h⟩ := Option.bind_eq_some_iff.1 h
    obtain ⟨_, hdocs, h⟩ := Option.bind_eq_some_iff.1 h
    obtain ⟨_, hexposures, h⟩ := Option.bind_eq_some_iff.1 h
    obtain ⟨_, hmetrics, h⟩ := Option.bind_eq_some_iff.1 h
    obtain ⟨_, hgroups, h⟩ := Option.bind_eq_some_iff.1 h
    obtain ⟨_, hselectors, h⟩ := Option.bind_eq_some_iff.1 h
    obtain ⟨_, hdisabled, h⟩ := Option.bind_eq_some_iff.1 h
    obtain ⟨_, hsemantic, h⟩ := Option.bind_eq_some_iff.1 h
    obtain ⟨_, htests, h⟩ := Option.bind_eq_some_iff.1 h
    obtain ⟨_, hqueries, h⟩ := Option.bind_eq_some_iff.1 h
    cases h
    exact ⟨hdistinct, hmetadata, hnodes, hsources, hmacros, hdocs, hexposures, hmetrics, hgroups, hselectors,
      hdisabled, hsemantic, htests, hqueries, rfl⟩
  · rintro ⟨hdistinct, hmetadata, hnodes, hsources, hmacros, hdocs, hexposures, hmetrics, hgroups, hselectors,
      hdisabled, hsemantic, htests, hqueries, hextra⟩
    rw [ofJson?, if_pos hdistinct]
    simp only [hmetadata, hnodes, hsources, hmacros, hdocs, hexposures, hmetrics, hgroups, hselectors, hdisabled,
      hsemantic, htests, hqueries, hextra, Option.bind_eq_bind, Option.bind_some, Option.pure_def]

theorem codec : Codec ofJson? toJson focus 5 := by
  refine .of_written known nofun (Focus.field_of_unknown (by decide)) fun {j m} h => ?_
  cases j with
  | obj source =>
    obtain ⟨-, hmetadata, hnodes, hsources, hmacros, hdocs, hexposures, hmetrics, hgroups, hselectors,
      hdisabled, hsemantic, htests, hqueries, hextra⟩ := ofJson?_obj.1 h
    have hmetadata : ReadFrom Metadata.ofJson? 1 source m.metadata := readFrom_defaulted rfl hmetadata
    refine ⟨source, _, rfl, by rw [toJson, ← hextra], ?written, ofJson?_obj.2
      ⟨Written.distinct ?written (by decide), Metadata.codec.defaulted_eq hmetadata ?_,
      nodes_codec.defaulted_eq (readFrom_collection hnodes) ?_,
      sources_codec.defaulted_eq (readFrom_collection hsources) ?_,
      macros_codec.defaulted_eq (readFrom_collection hmacros) ?_,
      docs_codec.defaulted_eq (readFrom_collection hdocs) ?_,
      resources_codec.defaulted_eq (readFrom_collection hexposures) ?_,
      resources_codec.defaulted_eq (readFrom_collection hmetrics) ?_,
      groups_codec.defaulted_eq (readFrom_collection hgroups) ?_,
      selectors_codec.defaulted_eq (readFrom_collection hselectors) ?_,
      disabled_codec.defaulted_eq (readFrom_collection hdisabled) ?_,
      resources_codec.defaulted_eq (readFrom_collection hsemantic) ?_,
      resources_codec.defaulted_eq (readFrom_collection htests) ?_,
      resources_codec.defaulted_eq (readFrom_collection hqueries) ?_,
      (Written.others_eq ?written).trans hextra⟩⟩
    case written =>
      simp only [List.cons_append, List.nil_append]
      refine .field Metadata.codec hmetadata (by decide) ?_
      refine .field nodes_codec (readFrom_collection hnodes) (by decide) ?_
      refine .field sources_codec (readFrom_collection hsources) (by decide) ?_
      refine .field macros_codec (readFrom_collection hmacros) (by decide) ?_
      refine .field docs_codec (readFrom_collection hdocs) (by decide) ?_
      refine .field resources_codec (readFrom_collection hexposures) (by decide) ?_
      refine .field resources_codec (readFrom_collection hmetrics) (by decide) ?_
      refine .field groups_codec (readFrom_collection hgroups) (by decide) ?_
      refine .field selectors_codec (readFrom_collection hselectors) (by decide) ?_
      refine .field disabled_codec (readFrom_collection hdisabled) (by decide) ?_
      refine .field resources_codec (readFrom_collection hsemantic) (by decide) ?_
      refine .field resources_codec (readFrom_collection htests) (by decide) ?_
      refine .field resources_codec (readFrom_collection hqueries) (by decide) ?_
      exact .others_only
    all_goals simp [List.lookup_cons]
  | _ => cases h

end Manifest

/-! ## Texts -/

/-- Whole numbers that fit 64 bits are read back, and doubles if their digits are. -/
theorem readsBack_of_inRange {n : Number} (h : n.InRange)
    (hreal : ∀ x, n = .real x → (Number.real x).ReadsBack) : n.ReadsBack := by
  cases n with
  | whole n => exact Number.readsBack_whole h
  | real x => exact hreal x rfl

theorem readsBack_numbers {v : Json} (hrange : ∀ n ∈ v.numbers, n.InRange)
    (hreal : ∀ x, .real x ∈ v.numbers → (Number.real x).ReadsBack) : ∀ n ∈ v.numbers, n.ReadsBack := by
  refine fun n hn => readsBack_of_inRange (hrange n hn) ?_
  rintro x rfl
  exact hreal x hn

namespace Manifest

/-- What is written for a manifest that was read nests no deeper than a text may. -/
theorem fits_of_parse? {text : String} {m : Manifest} (h : parse? text = some m) :
    Fits Number.InRange focus depthLimit m.toJson := by
  obtain ⟨j, hj, hm⟩ := Option.bind_eq_some_iff.1 h
  exact codec.fits hm (fits_of_parseFor? hj) (by decide)

/-- **A manifest survives being written and read.** If the doubles in it are read back from their shortest
decimals, the text that it is written as is accepted, and read as the same manifest. -/
theorem parse?_toText {text : String} {m : Manifest} (h : parse? text = some m)
    (hreal : ∀ x, .real x ∈ m.toJson.numbers → (Number.real x).ReadsBack) :
    parse? m.toText = some m := by
  obtain ⟨j, hj, hm⟩ := Option.bind_eq_some_iff.1 h
  have hread : Fits Number.InRange .whole depthLimit j := fits_of_parseFor? hj
  have hwritten : Fits Number.InRange focus depthLimit m.toJson := codec.fits hm hread (by decide)
  have hback : Fits Number.ReadsBack focus depthLimit m.toJson := by
    refine hwritten.of_numbers fun n hn hrange => readsBack_of_inRange hrange ?_
    rintro x rfl
    exact hreal x hn
  rw [parse?, toText, parseFor?_pretty hback, Option.bind_some, codec.reread hm]

/-- Dependencies by position, a type as an object, a null and a number that nothing looks at: the manifest is
written in another form than it had, and is still the same. -/
theorem parse?_toText_forms :
    let text := "\x7b\"nodes\":\x7b\"n\":\x7b\"unique_id\":\"n\",\"name\":\"n\",\"package_name\":\"p\","
      ++ "\"resource_type\":\x7b\"model\":null\x7d,\"version\":null,\"depends_on\":[[\"a\"]],"
      ++ "\"weight\":0.5\x7d\x7d\x7d"
    ∃ m, parse? text = some m ∧ m.toJson.numbers ≠ [] ∧
      (∀ x, .real x ∈ m.toJson.numbers → (Number.real x).ReadsBack) ∧ parse? m.toText = some m := by
  intro text
  have heval : ((parse? text).any fun m =>
      !m.toJson.numbers.isEmpty && m.toJson.numbers.all fun n => n.ReadsBack) = true := by
    decide +kernel
  cases hm : parse? text with
  | none =>
    rw [hm] at heval
    cases heval
  | some m =>
    rw [hm, Option.any_some, Bool.and_eq_true, Bool.not_eq_true', List.isEmpty_eq_false_iff,
      List.all_eq_true] at heval
    obtain ⟨hne, hall⟩ := heval
    have hreal : ∀ x, .real x ∈ m.toJson.numbers → (Number.real x).ReadsBack := fun x hx =>
      of_decide_eq_true (hall _ hx)
    exact ⟨m, rfl, hne, hreal, parse?_toText hm hreal⟩

end Manifest

end Lineage
