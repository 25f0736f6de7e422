import Lineage.Proofs.Manifest.Validate

/-!
# Macros that are called and not there

Records of every collection with dependencies can name macros that they call. Validation goes through nodes and
macros. Each of their calls of a macro that is not there is reported at the caller, and nothing else is
(`exists_reportsMissing_iff`). Calls by exposures, metrics, semantic models, saved queries and unit tests are passed
over, so all missing macros are reported exactly if those miss none that no node or macro misses under the same
identity (`missingMacros_reported_iff`).
-/

namespace Lineage.Manifest

open Diagnostic

variable {m : Manifest} {c : Config} {g : Graph} {id callee : NodeId}

/-! ## Calls -/

/-- A node or a macro under the identity calls the macro. -/
def CheckedCall (m : Manifest) (id callee : NodeId) : Prop :=
  (∃ n, m.nodes[id]? = some n ∧ callee ∈ n.dependsOn.macros) ∨
    ∃ d, m.macros[id]? = some d ∧ callee ∈ d.dependsOn.macros

/-- An exposure, metric, semantic model, saved query or unit test under the identity calls the macro. -/
def ResourceCall (m : Manifest) (id callee : NodeId) : Prop :=
  ∃ records ∈ m.resourceCollections, ∃ r, records[id]? = some r ∧ callee ∈ r.dependsOn.macros

/-- A record under the identity calls the macro. -/
def Calls (m : Manifest) (id callee : NodeId) : Prop := m.CheckedCall id callee ∨ m.ResourceCall id callee

theorem mem_macroCalls : (id, callee) ∈ m.macroCalls ↔ m.CheckedCall id callee := by
  simp [macroCalls, CheckedCall, Std.ExtTreeMap.mem_toList_iff_getElem?_eq_some]

/-! ## Findings -/

/-- A finding at the identity that it calls a macro which is not there. -/
structure ReportsMissing (m : Manifest) (id callee : NodeId) (d : Diagnostic) : Prop where
  code : d.code = .macroNotFound
  location : d.location = some (m.locationOf id)
  message : d.message = id ++ " calls macro '" ++ callee ++ "', which is not in the manifest"

/-- A finding is about one caller and one macro. -/
theorem ReportsMissing.unique {id' callee' : NodeId} {d : Diagnostic} (h : m.ReportsMissing id callee d)
    (h' : m.ReportsMissing id' callee' d) : id = id' ∧ callee = callee' := by
  have hlocation : m.locationOf id = m.locationOf id' := Option.some.inj (h.location.symm.trans h'.location)
  obtain rfl : id = id' := congrArg Location.uniqueId hlocation
  have hmessage := h.message.symm.trans h'.message
  exact ⟨rfl, by simpa using hmessage⟩

theorem mem_missingCalls :
    (id, callee) ∈ m.macroCalls.filter (fun (_, callee) => !m.macros.contains callee) ↔
      m.CheckedCall id callee ∧ callee ∉ m.macros := by
  rw [List.mem_filter, mem_macroCalls, Bool.not_eq_true', Bool.eq_false_iff, ne_eq, Std.ExtTreeMap.contains_iff_mem]

theorem mem_missingMacroFindings {d : Diagnostic} (h : d ∈ m.missingMacroFindings c) :
    ∃ id callee, m.ReportsMissing id callee d ∧ m.CheckedCall id callee ∧ callee ∉ m.macros := by
  obtain ⟨⟨id, callee⟩, hcall, rfl⟩ := List.mem_map.1 h
  exact ⟨id, callee, ⟨rfl, rfl, rfl⟩, mem_missingCalls.1 hcall⟩

theorem exists_mem_missingMacroFindings (hcall : m.CheckedCall id callee) (hmissing : callee ∉ m.macros) :
    ∃ d ∈ m.missingMacroFindings c, m.ReportsMissing id callee d :=
  ⟨_, List.mem_map_of_mem (mem_missingCalls.2 ⟨hcall, hmissing⟩), rfl, rfl, rfl⟩

theorem withCode_macroNotFound : withCode .macroNotFound (m.findings c g) = m.missingMacroFindings c := by
  rw [withCode_findings]
  simp [checks, coded_missingMacroFindings.withCode_eq_self]

theorem exists_reportsMissing_iff :
    (∃ d ∈ m.findings c g, m.ReportsMissing id callee d) ↔ m.CheckedCall id callee ∧ callee ∉ m.macros := by
  rw [← exists_withCode_iff fun _ h => h.code, withCode_macroNotFound]
  constructor
  · rintro ⟨d, hd, hreports⟩
    obtain ⟨id', callee', hreports', hcall⟩ := mem_missingMacroFindings hd
    obtain ⟨rfl, rfl⟩ := hreports.unique hreports'
    exact hcall
  · rintro ⟨hcall, hmissing⟩
    exact exists_mem_missingMacroFindings hcall hmissing

/-- **Which missing macros are reported.** Every finding of this code is about a call of a macro that is not there,
and those of nodes and macros, and no others, are reported. So all are, exactly if an exposure, metric, semantic
model, saved query or unit test calls only macros that are there, or that a node or a macro under the same identity
calls too. -/
theorem missingMacros_reported_iff (m : Manifest) (c : Config) (timestamp : String) :
    ∃ r, m.validate? c timestamp = .ok r ∧
      (∀ d ∈ r.diagnostics, d.code = .macroNotFound → ∃ id callee, m.ReportsMissing id callee d) ∧
      (∀ id callee, (∃ d ∈ r.diagnostics, m.ReportsMissing id callee d) ↔
        m.CheckedCall id callee ∧ callee ∉ m.macros) ∧
      ((∀ id callee, (∃ d ∈ r.diagnostics, m.ReportsMissing id callee d) ↔
          m.Calls id callee ∧ callee ∉ m.macros) ↔
        ∀ id callee, m.ResourceCall id callee → callee ∈ m.macros ∨ m.CheckedCall id callee) := by
  refine ⟨_, validate?_eq, ?_⟩
  rw [diagnostics_validate]
  refine ⟨fun d hd hcode => ?_, fun _ _ => exists_reportsMissing_iff, ?_⟩
  · have hfinding : d ∈ m.missingMacroFindings c := withCode_macroNotFound ▸ mem_withCode.2 ⟨hd, hcode⟩
    obtain ⟨id, callee, hreports, -⟩ := mem_missingMacroFindings hfinding
    exact ⟨id, callee, hreports⟩
  · simp only [exists_reportsMissing_iff]
    constructor
    · intro hall id callee hcall
      by_cases hmissing : callee ∈ m.macros
      · exact .inl hmissing
      · exact .inr ((hall id callee).2 ⟨.inr hcall, hmissing⟩).1
    · intro hcovered id callee
      refine and_congr_left fun hmissing => ⟨.inl, ?_⟩
      rintro (hcall | hcall)
      · exact hcall
      · exact (hcovered id callee hcall).resolve_left hmissing

/-- An exposure that calls a macro which is not there. -/
def callingExposure : Manifest :=
  { exposures := (∅ : Collection Resource).insert "e"
      { uniqueId := "e", name := "e", resourceType := .exposure, packageName := "p"
        dependsOn := { macros := ["macro.p.x"] } } }

/-- The macro that an exposure calls is missing, and the report has no finding about it. -/
theorem validate_passes_over_exposure :
    callingExposure.Calls "e" "macro.p.x" ∧ "macro.p.x" ∉ callingExposure.macros ∧
      ∃ r, callingExposure.validate? {} "now" = .ok r ∧ ∀ d ∈ r.diagnostics, d.code ≠ .macroNotFound := by
  refine ⟨.inr ⟨callingExposure.exposures, List.mem_cons_self, _, Std.ExtTreeMap.getElem?_insert_self,
    List.mem_singleton_self _⟩, by decide +kernel, _, validate?_eq, ?_⟩
  rw [diagnostics_validate, ← withCode_eq_nil_iff, withCode_macroNotFound]
  decide +kernel

end Lineage.Manifest
