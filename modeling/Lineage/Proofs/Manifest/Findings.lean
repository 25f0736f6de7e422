import Lineage.Proofs.Graph.LeastWalk
import Lineage.Proofs.Resolve.Macro

/-!
# Where findings are placed

Findings about a cycle or about duplicates are placed at the first artifact that they are about, so there
has to be one (`headed_findings`). A cycle is searched for in the graph that leaves unknown dependencies
out. It is found exactly if members depend on each other in a cycle, and what is reported is such a cycle
as the members declare it (`validate_reports_cycle`).
-/

namespace Lineage.Manifest

open Diagnostic MacroResolver

variable {m : Manifest} {c : Config} {g : Graph} {registry : Registry} {d : Diagnostic}

/-! ## Findings placed at the first of several artifacts -/

/-- A finding is about at least one artifact and placed at the first. -/
def Headed (m : Manifest) (d : Diagnostic) : Prop :=
  ∃ first ∈ d.related.head?, d.location = some (m.locationOf first)

/-- The codes of findings that are placed at the first artifact that they are about. -/
def headedCodes : List DiagnosticCode :=
  [.graphCycle, .sourceDuplicate, .refDuplicateInPackage, .macroAmbiguous]

theorem not_headed_of_coded {codes : List DiagnosticCode} {ds : List Diagnostic} (h : Coded codes ds)
    (hcodes : ∀ k ∈ codes, k ∉ headedCodes) : ∀ d ∈ ds, d.code ∉ headedCodes :=
  fun d hd => hcodes d.code (h d hd)

theorem headed_finding {code : DiagnosticCode} {fallback : Severity} {message : String} {ids : List NodeId}
    (h : ids ≠ []) : m.Headed (m.finding c code fallback (ids.headD "") message ids) := by
  cases ids with
  | nil => exact absurd rfl h
  | cons first rest => exact ⟨first, rfl, rfl⟩

theorem headed_cycleFindings : ∀ d ∈ m.cycleFindings c g, m.Headed d := by
  intro d hd
  unfold cycleFindings at hd
  split at hd
  · cases hd
  · rename_i members hfound
    rw [List.mem_singleton.1 hd]
    exact headed_finding (Graph.isCycle_of_findCycle hfound).1

theorem ne_nil_of_mem_sharedKeys {κ : Type} {order : κ → κ → Ordering} [Std.TransCmp order]
    {entries : List (κ × NodeId)} {p : κ × List NodeId} (h : p ∈ sharedKeys order entries) : p.2 ≠ [] := by
  have hseveral : 1 < p.2.length := by simpa using (List.mem_filter.1 h).2
  exact List.ne_nil_of_length_pos (Nat.zero_lt_of_lt hseveral)

theorem headed_duplicateSourceFindings : ∀ d ∈ m.duplicateSourceFindings c, m.Headed d := by
  intro d hd
  obtain ⟨p, hp, rfl⟩ := List.mem_map.1 hd
  exact headed_finding (ne_nil_of_mem_sharedKeys hp)

theorem headed_duplicateRefFindings : ∀ d ∈ m.duplicateRefFindings c, m.Headed d := by
  intro d hd
  obtain ⟨p, hp, rfl⟩ := List.mem_map.1 hd
  exact headed_finding (ne_nil_of_mem_sharedKeys hp)

theorem headed_macroAmbiguityFinding? {name : String}
    (h : m.macroAmbiguityFinding? c (m.strictResolver c registry) name = some d) : m.Headed d := by
  unfold macroAmbiguityFinding? at h
  split at h
  · cases h
  · rename_i a ha
    obtain ⟨⟨-, hseveral⟩, -, rfl⟩ := find_eq_error_iff.1 ha
    cases h
    exact headed_finding (List.ne_nil_of_length_pos (Nat.zero_lt_of_lt hseveral))

theorem headed_macroAmbiguityFindings :
    ∀ d ∈ m.macroAmbiguityFindings c, d.code ∈ headedCodes → m.Headed d := by
  intro d hd hcode
  cases hregistry : c.registry with
  | error e =>
    rw [macroAmbiguityFindings_of_error hregistry, List.mem_singleton] at hd
    subst hd
    exact absurd (show DiagnosticCode.warning ∈ headedCodes from hcode) (by decide)
  | ok registry =>
    rw [macroAmbiguityFindings_of_ok hregistry] at hd
    obtain ⟨name, -, hname⟩ := List.mem_filterMap.1 hd
    exact headed_macroAmbiguityFinding? hname

theorem headed_findings : ∀ d ∈ m.findings c g, d.code ∈ headedCodes → m.Headed d := by
  have hchecks : ∀ check ∈ m.checks c g, ∀ d ∈ check.2, d.code ∈ headedCodes → m.Headed d := by
    simp only [checks, List.forall_mem_cons]
    refine ⟨fun d hd hcode => ?_, fun d hd _ => headed_cycleFindings d hd,
      fun d hd _ => headed_duplicateSourceFindings d hd, fun d hd _ => headed_duplicateRefFindings d hd,
      fun d hd hcode => ?_, fun d hd hcode => ?_, headed_macroAmbiguityFindings, by simp⟩
    · exact absurd hcode (not_headed_of_coded coded_danglingFindings (by decide) d hd)
    · exact absurd hcode (not_headed_of_coded coded_declaredRefFindings (by decide) d hd)
    · exact absurd hcode (not_headed_of_coded coded_missingMacroFindings (by decide) d hd)
  rw [findings_eq]
  intro d hd
  obtain ⟨check, hcheck, hd⟩ := List.mem_flatMap.1 hd
  exact hchecks check hcheck d hd

/-! ## The finding about a cycle -/

/-- A member `v` declares to depend on `u`, which is a member too. -/
def MemberDependency (m : Manifest) (u v : NodeId) : Prop := m.Declares u v ∧ u ∈ m.memberIds

theorem edge_linkKnown : m.linkKnown.Edge = m.MemberDependency := by
  funext u v
  unfold Graph.Edge
  simp [links_linkKnown.edges, MemberDependency]

theorem cycleFindings_ne_nil_iff :
    m.cycleFindings c m.linkKnown ≠ [] ↔ ∃ v, Relation.TransGen m.MemberDependency v v := by
  rw [ne_eq, cycleFindings_eq_nil_iff, ← edge_linkKnown]
  exact not_forall_not

theorem length_cycleFindings_le : (m.cycleFindings c g).length ≤ 1 := by
  unfold cycleFindings
  split
  · exact Nat.zero_le 1
  · exact le_refl 1

/-- Distinct members, each declared by the next and the last by the first. -/
structure DeclaredCycle (m : Manifest) (ids : List NodeId) : Prop where
  nonempty : ids ≠ []
  nodup : ids.Nodup
  members : ∀ id ∈ ids, id ∈ m.memberIds
  declared : (ids ++ ids.take 1).IsChain m.Declares

theorem declaredCycle_of_mem_cycleFindings (hd : d ∈ m.cycleFindings c m.linkKnown) :
    m.DeclaredCycle d.related := by
  unfold cycleFindings at hd
  split at hd
  · cases hd
  · rename_i members hfound
    rw [List.mem_singleton.1 hd]
    obtain ⟨hnodup, hcycle⟩ := (Graph.findCycle_eq_some_iff.1 hfound).isCycle
    refine ⟨hcycle.1, hnodup, fun id hid => (links_linkKnown.nodes id).1 (hcycle.contains hid), ?_⟩
    have hchain := hcycle.2
    rw [edge_linkKnown] at hchain
    exact hchain.imp fun _ _ h => h.1

/-- **Validation reports a cycle where there is one.** It never fails, and what is placed at the first
artifact that it is about is about at least one. There is at most one finding about a cycle, and there is
one exactly if members depend on each other in a cycle; it names such a cycle. -/
theorem validate_reports_cycle (m : Manifest) (c : Config) (timestamp : String) :
    ∃ r, m.validate? c timestamp = .ok r ∧
      (∀ d ∈ r.diagnostics, d.code ∈ headedCodes → m.Headed d) ∧
      (withCode .graphCycle r.diagnostics).length ≤ 1 ∧
      (withCode .graphCycle r.diagnostics ≠ [] ↔ ∃ v, Relation.TransGen m.MemberDependency v v) ∧
      ∀ d ∈ r.diagnostics, d.code = .graphCycle → m.DeclaredCycle d.related := by
  refine ⟨_, validate?_eq, ?_⟩
  rw [diagnostics_validate, withCode_cycle]
  refine ⟨headed_findings, length_cycleFindings_le, cycleFindings_ne_nil_iff, fun d hd hcode => ?_⟩
  have hfinding := mem_withCode.2 ⟨hd, hcode⟩
  rw [withCode_cycle] at hfinding
  exact declaredCycle_of_mem_cycleFindings hfinding

end Lineage.Manifest
