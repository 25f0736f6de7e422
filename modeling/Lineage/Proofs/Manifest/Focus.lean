import Lineage.Proofs.Json.Nesting
import Lineage.Proofs.Manifest.RoundTrip

/-!
# What a manifest leaves out of a text

Main results:
* `Manifest.parse?_of_parse?`: where a text can be read as a whole, the manifest in it is read from that value.
* `Manifest.parse?_toText_of_nesting` and `Manifest.ofJson?_of_parse?_toText`: a manifest that does not nest too deep
  is read from the value that is written for it, and what is read of any other was read from that value.

Beside declared dependencies, unknown fields are skipped before the records are read. No record looks at them.
-/

namespace Lineage

open Json

theorem DependsOn.focus_suffices : focus.Suffices ofJson? := by
  intro j
  cases j with
  | obj fields =>
    rw [focus, Focus.prune_only_obj]
    have hlookup : ∀ name ∈ known,
        (fields.filter fun field => known.contains field.1).lookup name = fields.lookup name := by
      intro name hname
      exact lookup_filter_of_forall (fun value => by simpa using hname) fields
    simp only [ofJson?, Focus.distinct_filter, defaulted, hlookup "nodes" (by decide), hlookup "macros" (by decide)]
  | arr items => rw [focus, Focus.prune_only_arr]
  | _ => rfl

theorem Node.focus_suffices : focus.Suffices ofJson? := by
  intro j
  cases j with
  | obj fields =>
    have hfocus : focus ≠ .nothing := Focus.record_kept _ _
    have hfields : focus.KeepsFields := Focus.keepsFields_record (by simp [DependsOn.focus, Focus.only])
    rw [Focus.prune_obj hfocus]
    refine Option.ext fun n => ?_
    rw [ofJson?_obj, ofJson?_obj, hfields.distinct_eq,
      hfields.required_eq "unique_id" (Focus.whole_suffices _),
      hfields.required_eq "name" (Focus.whole_suffices _),
      hfields.required_eq "resource_type" (Focus.whole_suffices _),
      hfields.required_eq "package_name" (Focus.whole_suffices _),
      hfields.optional_eq "version" rfl, hfields.optional_eq "latest_version" rfl,
      hfields.optional_eq "group" rfl, hfields.defaulted_eq "config" (Focus.whole_suffices _),
      hfields.defaulted_eq "depends_on" DependsOn.focus_suffices,
      hfields.others_eq (Focus.field_of_unknown (by decide))]
  | _ => rfl

theorem MacroDef.focus_suffices : focus.Suffices ofJson? := by
  intro j
  cases j with
  | obj fields =>
    have hfocus : focus ≠ .nothing := Focus.record_kept _ _
    have hfields : focus.KeepsFields := Focus.keepsFields_record (by simp [DependsOn.focus, Focus.only])
    rw [Focus.prune_obj hfocus]
    refine Option.ext fun m => ?_
    rw [ofJson?_obj, ofJson?_obj, hfields.distinct_eq,
      hfields.required_eq "unique_id" (Focus.whole_suffices _),
      hfields.required_eq "name" (Focus.whole_suffices _),
      hfields.required_eq "resource_type" (Focus.whole_suffices _),
      hfields.required_eq "package_name" (Focus.whole_suffices _),
      hfields.defaulted_eq "depends_on" DependsOn.focus_suffices,
      hfields.others_eq (Focus.field_of_unknown (by decide))]
  | _ => rfl

theorem Resource.focus_suffices : focus.Suffices ofJson? := by
  intro j
  cases j with
  | obj fields =>
    have hfocus : focus ≠ .nothing := Focus.record_kept _ _
    have hfields : focus.KeepsFields := Focus.keepsFields_record (by simp [DependsOn.focus, Focus.only])
    rw [Focus.prune_obj hfocus]
    refine Option.ext fun r => ?_
    rw [ofJson?_obj, ofJson?_obj, hfields.distinct_eq,
      hfields.required_eq "unique_id" (Focus.whole_suffices _),
      hfields.required_eq "name" (Focus.whole_suffices _),
      hfields.required_eq "resource_type" (Focus.whole_suffices _),
      hfields.required_eq "package_name" (Focus.whole_suffices _),
      hfields.optional_eq "group" rfl, hfields.defaulted_eq "config" (Focus.whole_suffices _),
      hfields.defaulted_eq "depends_on" DependsOn.focus_suffices,
      hfields.others_eq (Focus.field_of_unknown (by decide))]
  | _ => rfl

namespace Manifest

theorem focus_suffices : focus.Suffices ofJson? := by
  intro j
  cases j with
  | obj fields =>
    have hfocus : focus ≠ .nothing := Focus.record_kept _ _
    have hfields : focus.KeepsFields := Focus.keepsFields_record (by simp)
    have hresources : (Focus.each Resource.focus).Suffices (mapOf Resource.ofJson?) :=
      Resource.focus_suffices.mapOf (Focus.record_kept _ _)
    rw [Focus.prune_obj hfocus]
    refine Option.ext fun m => ?_
    rw [ofJson?_obj, ofJson?_obj, hfields.distinct_eq, hfields.defaulted_eq "metadata" (Focus.whole_suffices _),
      hfields.defaulted_eq "nodes" (Node.focus_suffices.mapOf (Focus.record_kept _ _)),
      hfields.defaulted_eq "sources" (Focus.whole_suffices _),
      hfields.defaulted_eq "macros" (MacroDef.focus_suffices.mapOf (Focus.record_kept _ _)),
      hfields.defaulted_eq "docs" (Focus.whole_suffices _),
      hfields.defaulted_eq "exposures" hresources,
      hfields.defaulted_eq "metrics" hresources,
      hfields.defaulted_eq "groups" (Focus.whole_suffices _),
      hfields.defaulted_eq "selectors" (Focus.whole_suffices _),
      hfields.defaulted_eq "disabled" (Focus.whole_suffices _),
      hfields.defaulted_eq "semantic_models" hresources,
      hfields.defaulted_eq "unit_tests" hresources,
      hfields.defaulted_eq "saved_queries" hresources,
      hfields.others_eq (Focus.field_of_unknown (by decide))]
  | _ => rfl

theorem parse?_of_parse? {text : String} {j : Json} (h : Json.parse? text = some j) : parse? text = ofJson? j := by
  rw [parse?, parseFor?_eq_prune h, Option.bind_some, focus_suffices]

theorem parse?_toText_of_nesting {m : Manifest} (hdepth : m.toJson.nesting ≤ depthLimit)
    (hnumbers : ∀ n ∈ m.toJson.numbers, n.ReadsBack) : parse? m.toText = ofJson? m.toJson :=
  parse?_of_parse? (parse?_pretty hdepth hnumbers)

theorem ofJson?_of_parse?_toText {m m' : Manifest} (hnumbers : ∀ n ∈ m.toJson.numbers, n.ReadsBack)
    (h : parse? m.toText = some m') : ofJson? m.toJson = some m' := by
  obtain ⟨j, hj, hm'⟩ := Option.bind_eq_some_iff.1 h
  rw [eq_prune_of_parseFor? hnumbers hj, focus_suffices] at hm'
  exact hm'

end Manifest

end Lineage
