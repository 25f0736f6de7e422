import Lineage.Proofs.Adapter.Inheritance
import Lineage.Proofs.Resolve.Macro
import Mathlib.Data.List.Forall2

/-!
# How serious findings are

A configuration can set how serious the findings of a code are. What is found does not depend on that:
configurations that differ in nothing else lead to findings of the same text in the same order, and those of
a code for which they set the same are as serious (`rated_findings`). Findings are as serious as the
configuration says, with one exception: the warning that there is no registry of adapters to look macros
up with stays a warning (`validate_withOverrides`).

The text of this warning names an adapter with a missing parent. Where there are several, even two runs of one
configuration need not name the same one, and either can name any (`exists_withCode_warning`). Nothing else
that is found depends on the order in which a run comes to the adapters (`findings_of_lineups`).
-/

namespace Lineage

variable {c c' : Config} {lineup lineup' : Lineup} {d d' : Diagnostic}
  {overrides : Std.ExtTreeMap String Severity compare}

/-- The configuration with other severities set. -/
def Config.withOverrides (c : Config) (overrides : Std.ExtTreeMap String Severity compare) : Config :=
  { c with severityOverrides := overrides }

namespace Diagnostic

/-- A finding is as serious as the configuration says, if it says anything about its code. -/
def Obeys (c : Config) (d : Diagnostic) : Prop :=
  ∀ severity, c.severityOverrides[d.code.name]? = some severity → d.severity = severity

/-- Two findings that differ in nothing but how serious they are. -/
def SameText (d d' : Diagnostic) : Prop := d' = { d with severity := d'.severity }

/-- Two findings that say the same, unless both say that there is no registry: they may name different
missing parents. They can differ in how serious they are only if the configurations set different severities
for their code, or only one of them sets any. -/
structure Alike (c c' : Config) (d d' : Diagnostic) : Prop where
  content : SameText d d' ∨ ∃ e e', c.Lacks e ∧ c'.Lacks e' ∧
    d = Manifest.registryWarning e ∧ d' = Manifest.registryWarning e'
  severity : c.severityOverrides[d.code.name]? = c'.severityOverrides[d.code.name]? →
    d'.severity = d.severity

/-- Two findings that say the same, or why there is no registry in one lineup and in another. Each is as
serious as its configuration or else a default of both says. One of the code for warnings is as serious in
one as in the other. -/
structure Rated (c c' : Config) (lineup lineup' : Lineup) (d d' : Diagnostic) : Prop where
  content : SameText d d' ∨ ∃ e e', c.registry lineup = .error e ∧ c'.registry lineup' = .error e' ∧
    d = Manifest.registryWarning e ∧ d' = Manifest.registryWarning e'
  severity : if d.code = .warning then d'.severity = d.severity else
    ∃ fallback, d.severity = c.severityOf d.code fallback ∧ d'.severity = c'.severityOf d.code fallback

/-- These findings are as serious as the configuration says, those of the code for warnings exactly if it
has a registry of adapters or keeps warnings as they are. -/
structure Governs (c : Config) (ds : List Diagnostic) : Prop where
  others : ∀ d ∈ ds, d.code ≠ .warning → Obeys c d
  all_iff : (∀ d ∈ ds, Obeys c d) ↔
    (∃ registry, c.registry = .ok registry) ∨ c.severityOf .warning .warn = .warn

theorem severityOf_eq {k : DiagnosticCode} {fallback : Severity} :
    c.severityOf k fallback = c.severityOverrides[k.name]?.getD fallback := by
  unfold Config.severityOf
  rw [Std.ExtTreeMap.getD_eq_getD_getElem?]

theorem Rated.alike (h : Rated c c' lineup lineup' d d') : Alike c c' d d' := by
  refine ⟨h.content.imp_right ?_, fun hsame => ?_⟩
  · rintro ⟨e, e', he, he', hd⟩
    exact ⟨e, e', Config.lacks_of_registry_eq_error he, Config.lacks_of_registry_eq_error he', hd⟩
  · have hseverity := h.severity
    split at hseverity
    · exact hseverity
    · obtain ⟨fallback, hd, hd'⟩ := hseverity
      rw [hd, hd', severityOf_eq, severityOf_eq, hsame]

/-- Where nothing is set differently, findings that say the same are equal. -/
theorem Alike.eq_or (h : Alike c c d d') :
    d = d' ∨ ∃ e e', c.Lacks e ∧ c.Lacks e' ∧ d = Manifest.registryWarning e ∧ d' = Manifest.registryWarning e' := by
  refine h.content.imp_left fun hsame => ?_
  rw [hsame, h.severity rfl]

/-- Where the same parent is named, the findings say the same. -/
theorem Rated.sameText (h : Rated c c' lineup lineup' d d')
    (hnamed : ∀ e e', c.registry lineup = .error e → c'.registry lineup' = .error e' → e = e') :
    SameText d d' := by
  obtain hsame | ⟨e, e', he, he', rfl, rfl⟩ := h.content
  · exact hsame
  · obtain rfl := hnamed e e' he he'
    rfl

theorem Rated.obeys (h : Rated c c' lineup lineup' d d') (hcode : d.code ≠ .warning) : Obeys c d := by
  intro severity hset
  have hseverity := h.severity
  rw [if_neg hcode] at hseverity
  obtain ⟨fallback, hd, -⟩ := hseverity
  rw [hd, severityOf_eq, hset]
  rfl

theorem rated_registryWarning {e e' : UnknownParent} (h : c.registry lineup = .error e)
    (h' : c'.registry lineup' = .error e') :
    Rated c c' lineup lineup' (Manifest.registryWarning e) (Manifest.registryWarning e') := by
  have hcode : (Manifest.registryWarning e).code = .warning := rfl
  exact ⟨.inr ⟨e, e', h, h', rfl, rfl⟩, by rw [if_pos hcode]; rfl⟩

theorem rated_map {α : Type} {f f' : α → Diagnostic} {l : List α}
    (h : ∀ a, Rated c c' lineup lineup' (f a) (f' a)) :
    List.Forall₂ (Rated c c' lineup lineup') (l.map f) (l.map f') :=
  List.rel_map (R := Eq) (fun a _ hab => hab ▸ h a) (List.forall₂_refl l)

theorem rated_filterMap {α : Type} {f f' : α → Option Diagnostic} {l : List α}
    (h : ∀ a, Option.Rel (Rated c c' lineup lineup') (f a) (f' a)) :
    List.Forall₂ (Rated c c' lineup lineup') (l.filterMap f) (l.filterMap f') :=
  List.rel_filterMap (R := Eq) (fun a _ hab => hab ▸ h a) (List.forall₂_refl l)

theorem rated_flatMap {α : Type} {f f' : α → List Diagnostic} {l : List α}
    (h : ∀ a, List.Forall₂ (Rated c c' lineup lineup') (f a) (f' a)) :
    List.Forall₂ (Rated c c' lineup lineup') (l.flatMap f) (l.flatMap f') :=
  List.rel_flatMap (R := Eq) (List.forall₂_refl l) fun a _ hab => hab ▸ h a

end Diagnostic

namespace Manifest

open Diagnostic

variable {m : Manifest} {g : Graph} {timestamp : String}

/-! ## Check by check -/

theorem rated_finding {code : DiagnosticCode} {fallback : Severity} {site : NodeId} {message : String}
    {related : List NodeId} (hcode : code ≠ .warning) :
    Rated c c' lineup lineup' (m.finding c code fallback site message related)
      (m.finding c' code fallback site message related) := by
  refine ⟨.inl rfl, ?_⟩
  change if code = .warning then _ else _
  rw [if_neg hcode]
  exact ⟨fallback, rfl, rfl⟩

theorem rated_danglingFindings :
    List.Forall₂ (Rated c c' lineup lineup') (m.danglingFindings c) (m.danglingFindings c') :=
  rated_map fun _ => rated_finding (by decide)

theorem rated_cycleFindings :
    List.Forall₂ (Rated c c' lineup lineup') (m.cycleFindings c g) (m.cycleFindings c' g) := by
  unfold cycleFindings
  cases g.findCycle with
  | none => exact .nil
  | some members => exact .cons (rated_finding (by decide)) .nil

theorem rated_duplicateSourceFindings :
    List.Forall₂ (Rated c c' lineup lineup') (m.duplicateSourceFindings c) (m.duplicateSourceFindings c') :=
  rated_map fun _ => rated_finding (by decide)

theorem rated_duplicateRefFindings :
    List.Forall₂ (Rated c c' lineup lineup') (m.duplicateRefFindings c) (m.duplicateRefFindings c') :=
  rated_map fun _ => rated_finding (by decide)

theorem rated_missingMacroFindings :
    List.Forall₂ (Rated c c' lineup lineup') (m.missingMacroFindings c) (m.missingMacroFindings c') :=
  rated_map fun _ => rated_finding (by decide)

/-! The checks that look names up do so for the project and the policy of the configuration. -/

theorem rated_declaredRefFindings :
    List.Forall₂ (Rated c (c.withOverrides overrides) lineup lineup') (m.declaredRefFindings c)
      (m.declaredRefFindings (c.withOverrides overrides)) := by
  refine rated_flatMap fun (id, n) => rated_filterMap fun r => ?_
  have hproject : m.rootProject (c.withOverrides overrides) = m.rootProject c := rfl
  unfold declaredRefFinding?
  rw [hproject]
  dsimp only
  split
  · exact .none
  · exact .some (rated_finding (by decide))
  · exact .some (rated_finding (by decide))

theorem rated_macroAmbiguityFinding? {resolver : MacroResolver} {name : String} :
    Option.Rel (Rated c (c.withOverrides overrides) lineup lineup') (m.macroAmbiguityFinding? c resolver name)
      (m.macroAmbiguityFinding? (c.withOverrides overrides) resolver name) := by
  unfold macroAmbiguityFinding?
  split
  · exact .none
  · exact .some (rated_finding (by decide))

theorem rated_macroAmbiguityFindings :
    List.Forall₂ (Rated c (c.withOverrides overrides) lineup lineup') (m.macroAmbiguityFindings c lineup)
      (m.macroAmbiguityFindings (c.withOverrides overrides) lineup') := by
  -- severities have no part in the registry, and lineups none in whether there is one
  have hregistry : (c.withOverrides overrides).registry lineup' = c.registry lineup' := rfl
  cases h : c.registry lineup with
  | error e =>
    cases h' : c.registry lineup' with
    | error e' =>
      rw [macroAmbiguityFindings_of_error h, macroAmbiguityFindings_of_error (hregistry.trans h')]
      exact .cons (rated_registryWarning h (hregistry.trans h')) .nil
    | ok registry =>
      rw [Config.registry_eq_ok_congr, h] at h'
      cases h'
  | ok registry =>
    have h' : c.registry lineup' = .ok registry := Config.registry_eq_ok_congr.1 h
    rw [macroAmbiguityFindings_of_ok h, macroAmbiguityFindings_of_ok (hregistry.trans h')]
    exact rated_filterMap fun _ => rated_macroAmbiguityFinding?

/-! ## The report -/

theorem rated_findings :
    List.Forall₂ (Rated c (c.withOverrides overrides) lineup lineup') (m.findings c g lineup)
      (m.findings (c.withOverrides overrides) g lineup') := by
  unfold findings
  refine List.rel_append (List.rel_append (List.rel_append (List.rel_append (List.rel_append
    (List.rel_append ?_ ?_) ?_) ?_) ?_) ?_) ?_
  · exact rated_danglingFindings
  · exact rated_cycleFindings
  · exact rated_duplicateSourceFindings
  · exact rated_duplicateRefFindings
  · exact rated_declaredRefFindings
  · exact rated_missingMacroFindings
  · exact rated_macroAmbiguityFindings

/-- Two runs of one configuration find the same, but they may name different missing parents. -/
theorem findings_of_lineups :
    List.Forall₂ (fun d d' => d = d' ∨
        ∃ e e', c.Lacks e ∧ c.Lacks e' ∧ d = registryWarning e ∧ d' = registryWarning e')
      (m.findings c g lineup) (m.findings c g lineup') := by
  have hrated : List.Forall₂ (Rated c (c.withOverrides c.severityOverrides) lineup lineup')
      (m.findings c g lineup) (m.findings c g lineup') := rated_findings
  exact hrated.imp fun _ _ h => h.alike.eq_or

theorem obeys_of_mem_findings : ∀ d ∈ m.findings c g lineup, d.code ≠ .warning → Obeys c d := by
  have hrated : List.Forall₂
      (fun d d' => (d.code ≠ .warning → Obeys c d) ∧ Rated c (c.withOverrides ∅) lineup lineup d d')
      (m.findings c g lineup) (m.findings (c.withOverrides ∅) g lineup) :=
    rated_findings.imp fun _ _ h => ⟨h.obeys, h⟩
  exact ((List.forall₂_and_left _ _).1 hrated).1

/-- A finding of the code for warnings says that there is no registry. -/
theorem withCode_warning :
    withCode .warning (m.findings c g lineup) =
      match c.registry lineup with
      | .error e => [registryWarning e]
      | .ok _ => [] := by
  have hfound : withCode .warning (m.findings c g lineup) =
      withCode .warning (m.macroAmbiguityFindings c lineup) := by
    rw [withCode_findings]
    simp [checks]
  rw [hfound]
  cases h : c.registry lineup with
  | error e =>
    rw [macroAmbiguityFindings_of_error h]
    rfl
  | ok registry => exact (coded_macroAmbiguityFindings_of_ok h).withCode_eq_nil (by decide)

/-- Any missing parent can be the one that is named. -/
theorem exists_withCode_warning {e : UnknownParent} (h : c.Lacks e) :
    ∃ lineup, withCode .warning (m.findings c g lineup) = [registryWarning e] := by
  obtain ⟨lineup, hlineup⟩ := Config.exists_registry_eq_error_iff.2 h
  refine ⟨lineup, ?_⟩
  rw [withCode_warning, hlineup]

theorem obeys_registryWarning {e : UnknownParent} :
    Obeys c (registryWarning e) ↔ c.severityOf .warning .warn = .warn := by
  unfold Obeys registryWarning
  rw [severityOf_eq]
  cases c.severityOverrides[DiagnosticCode.warning.name]? with
  | none => simp
  | some severity => simp [eq_comm]

theorem governs_findings : Governs c (m.findings c g lineup) := by
  refine ⟨obeys_of_mem_findings, ?_⟩
  -- all other findings obey in any case
  have hsplit : (∀ d ∈ m.findings c g lineup, Obeys c d) ↔
      ∀ d ∈ withCode .warning (m.findings c g lineup), Obeys c d := by
    refine ⟨fun h d hd => h d (mem_withCode.1 hd).1, fun h d hd => ?_⟩
    by_cases hcode : d.code = .warning
    · exact h d (mem_withCode.2 ⟨hd, hcode⟩)
    · exact obeys_of_mem_findings d hd hcode
  have hregistry : (∃ registry, c.registry = .ok registry) ↔ ∃ registry, c.registry lineup = .ok registry :=
    exists_congr fun _ => Config.registry_eq_ok_congr
  rw [hsplit, withCode_warning, hregistry]
  cases c.registry lineup with
  | error e => simp [obeys_registryWarning]
  | ok registry => simp

/-- **What the configuration says about severities.** With other overrides validation finds the same in
the same order, up to the severities of codes for which they differ. Only the finding that there is no
registry of adapters may name another missing parent, if there are several and the runs come to the adapters
in different orders. Under either, every finding is as serious as the overrides say, unless its code is that
of warnings: that finding stays a warning. So all are, exactly if there is a registry or warnings are to stay
warnings. -/
theorem validate_withOverrides (m : Manifest) (c : Config)
    (overrides : Std.ExtTreeMap String Severity compare) (timestamp : String) (lineup lineup' : Lineup) :
    ∃ r r', m.validate? c timestamp lineup = .ok r ∧
      m.validate? (c.withOverrides overrides) timestamp lineup' = .ok r' ∧
      List.Forall₂ (Alike c (c.withOverrides overrides)) r.diagnostics r'.diagnostics ∧
      (lineup = lineup' ∨ (∀ e e', c.Lacks e → c.Lacks e' → e = e') →
        List.Forall₂ SameText r.diagnostics r'.diagnostics) ∧
      Governs c r.diagnostics ∧ Governs (c.withOverrides overrides) r'.diagnostics := by
  refine ⟨_, _, validate?_eq, validate?_eq, ?_⟩
  rw [diagnostics_validate, diagnostics_validate]
  have hrated : List.Forall₂ (Rated c (c.withOverrides overrides) lineup lineup')
      (m.findings c m.linkKnown lineup) (m.findings (c.withOverrides overrides) m.linkKnown lineup') :=
    rated_findings
  refine ⟨hrated.imp fun _ _ => Rated.alike, fun hone => ?_, governs_findings, governs_findings⟩
  refine hrated.imp fun _ _ h => h.sameText fun e e' he he' => ?_
  rcases hone with rfl | hone
  · exact Except.error.inj (he.symm.trans he')
  · exact hone e e' (Config.lacks_of_registry_eq_error he) (Config.lacks_of_registry_eq_error he')

/-- An adapter with an unknown parent, and warnings made errors. -/
def unknownParentConfig : Config where
  severityOverrides := (∅ : Std.ExtTreeMap String Severity compare).insert "WARNING" .error
  adapters := (∅ : Std.ExtTreeMap String _ compare).insert "x" ⟨"p", some "nope"⟩

/-- That there is no registry is a warning even if warnings are to be errors. -/
theorem validate_keeps_warning :
    ∃ r, ({} : Manifest).validate? unknownParentConfig "now" = .ok r ∧
      ∃ d ∈ r.diagnostics, unknownParentConfig.severityOverrides[d.code.name]? = some .error ∧
        d.severity = .warn := by
  have hregistry : unknownParentConfig.registry = .error ⟨"x", "nope"⟩ := by decide +kernel
  refine ⟨_, validate?_eq, registryWarning ⟨"x", "nope"⟩, ?_, by decide +kernel, rfl⟩
  rw [diagnostics_validate]
  refine ((mem_withCode (k := .warning)).1 ?_).1
  rw [withCode_warning, hregistry]
  exact List.mem_singleton_self _

end Manifest

end Lineage
