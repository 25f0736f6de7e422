import Lineage.Proofs.Manifest.Validate

/-!
# Ambiguous macros

A lookup fails only where the best macro of a name is imported and not the only imported one
(`MacroResolver.choose_eq_error_iff`). What is looked up for a materialization are the macros of one name,
with or without the imported ones, so it fails for no name for which the plain lookup succeeds
(`MacroResolver.findMaterialization_eq_ok`). Validation reports exactly the names for which it fails
(`Manifest.macroAmbiguity_reported`).
-/

namespace Lineage

namespace MacroResolver

variable {r r' : MacroResolver} {name : String} {cs : List MacroCandidate} {a : Ambiguity}

/-- The imported macros among candidates. -/
def importedIds (cs : List MacroCandidate) : List NodeId :=
  (cs.filter (·.locality == .imported)).map (·.uniqueId)

/-- Whether the best of sorted candidates is one of several imported ones. -/
def Contested (cs : List MacroCandidate) : Prop :=
  (∃ best ∈ cs.head?, best.locality = .imported) ∧ 1 < (importedIds cs).length

theorem choose_eq_error_iff :
    r.choose name cs = .error a ↔
      Contested cs ∧ r.policy.strictMacroAmbiguity = true ∧ a = ⟨.macroDef, name, importedIds cs⟩ := by
  unfold choose Contested
  cases cs with
  | nil => simp
  | cons best rest =>
    simp only [List.head?_cons, Option.mem_def, Option.some.injEq, exists_eq_left', importedIds]
    split
    · rename_i h
      simp only [h, true_and, Except.error.injEq, and_self]
      exact eq_comm
    · rename_i h
      simp only [reduceCtorEq, false_iff]
      tauto

/-- A choice that is not refused succeeds. -/
theorem exists_choose_eq_ok (h : ¬ Contested cs) : ∃ id?, r.choose name cs = .ok id? := by
  cases hc : r.choose name cs with
  | ok id? => exact ⟨id?, rfl⟩
  | error a => exact absurd (choose_eq_error_iff.1 hc).1 h

/-- Without imported macros nothing is contested. -/
theorem not_contested_of_forall_ne (h : ∀ c ∈ cs, c.locality ≠ .imported) : ¬ Contested cs := by
  rintro ⟨⟨best, hbest, himported⟩, -⟩
  exact h best (List.mem_of_mem_head? hbest) himported

/-- Nothing is contested either where imported candidates are left out, all of them or none. -/
theorem not_contested_filter (all : Bool) (h : ¬ Contested cs) :
    ¬ Contested (cs.filter fun c => all || c.locality != .imported) := by
  cases all with
  | true => simpa using h
  | false =>
    apply not_contested_of_forall_ne
    intro c hc
    simpa using (List.mem_filter.1 hc).2

theorem findMaterialization_eq_ok (h : ∀ name, ¬ Contested (r.candidates name)) (materialization : String) :
    ∃ id?, r.findMaterialization materialization = .ok id? := by
  unfold findMaterialization
  dsimp only
  split
  · rename_i name cs hfound
    obtain ⟨⟨_, all⟩, hmem, heq⟩ := List.mem_map.1 (List.mem_of_find?_eq_some hfound)
    obtain ⟨type, -, htype⟩ := List.mem_map.1 hmem
    cases heq
    cases htype
    exact exists_choose_eq_ok (not_contested_filter _ (h _))
  · exact ⟨none, rfl⟩

theorem mem_names_of_contested (h : Contested (r.candidates name)) : ∃ d ∈ r.macros, d.name = name := by
  obtain ⟨⟨best, hbest, -⟩, -⟩ := h
  have hmem : best ∈ r.candidates name := List.mem_of_mem_head? hbest
  unfold candidates at hmem
  obtain ⟨d, hd, -⟩ := List.mem_map.1 (List.mem_mergeSort.1 hmem)
  obtain ⟨hd, hname⟩ := List.mem_filter.1 hd
  exact ⟨d, hd, beq_iff_eq.1 hname⟩

end MacroResolver

namespace Manifest

open Diagnostic MacroResolver

variable {m : Manifest} {c : Config} {registry : Registry} {lineup : Lineup} {policy : ResolutionPolicy}
  {name : String}

/-- Macros of the manifest, looked up for the project and the adapter that validation takes. -/
def macroResolver (m : Manifest) (c : Config) (registry : Registry) (policy : ResolutionPolicy) :
    MacroResolver :=
  MacroResolver.ofManifest m ((m.rootProject c).getD "")
    ((c.adapterTypeOr m.adapterType).getD defaultAdapterType) registry policy

theorem find_eq_error_iff {a : Ambiguity} :
    (m.macroResolver c registry policy).find name none = .error a ↔
      Contested ((m.macroResolver c registry {}).candidates name) ∧ policy.strictMacroAmbiguity = true ∧
        a = ⟨.macroDef, name, importedIds ((m.macroResolver c registry {}).candidates name)⟩ :=
  choose_eq_error_iff

theorem mem_macroNames : name ∈ m.macroNames ↔ ∃ d ∈ m.macros.values, d.name = name := by
  unfold macroNames
  simp [Std.ExtTreeSet.mem_toList, Std.ExtTreeSet.mem_ofList]

theorem pairwise_macroNames : m.macroNames.Pairwise (· < ·) :=
  Std.ExtTreeSet.ordered_toList.imp compare_lt_iff_lt.1

/-- The resolver that validation looks macro names up with. -/
def strictResolver (m : Manifest) (c : Config) (registry : Registry) : MacroResolver :=
  m.macroResolver c registry { c.resolution with strictMacroAmbiguity := true }

/-- The finding that there is no registry to look macros up with. -/
def registryWarning (e : UnknownParent) : Diagnostic :=
  { code := .warning, severity := .warn, message := "Macro ambiguity not checked: " ++ e.message }

theorem macroAmbiguityFindings_of_error {e : UnknownParent} (h : c.registry lineup = .error e) :
    m.macroAmbiguityFindings c lineup = [registryWarning e] := by
  unfold macroAmbiguityFindings
  rw [h]
  rfl

theorem macroAmbiguityFindings_of_ok (h : c.registry lineup = .ok registry) :
    m.macroAmbiguityFindings c lineup =
      m.macroNames.filterMap (m.macroAmbiguityFinding? c (m.strictResolver c registry)) := by
  unfold macroAmbiguityFindings
  rw [h]
  rfl

/-- With a registry the check has no findings of another code. -/
theorem coded_macroAmbiguityFindings_of_ok (h : c.registry lineup = .ok registry) :
    Coded [.macroAmbiguous] (m.macroAmbiguityFindings c lineup) := by
  rw [macroAmbiguityFindings_of_ok h]
  intro d hd
  obtain ⟨n, -, hn⟩ := List.mem_filterMap.1 hd
  unfold macroAmbiguityFinding? at hn
  split at hn
  · cases hn
  · cases hn
    exact List.mem_singleton_self _

theorem withCode_macroAmbiguous {g : Graph} (h : c.registry lineup = .ok registry) :
    withCode .macroAmbiguous (m.findings c g lineup) =
      m.macroNames.filterMap (m.macroAmbiguityFinding? c (m.strictResolver c registry)) := by
  have hself := (coded_macroAmbiguityFindings_of_ok h).withCode_eq_self.trans
    (macroAmbiguityFindings_of_ok (m := m) h)
  rw [withCode_findings]
  simp [checks, hself]

/-- A finding that says that this name is ambiguous, and between which macros. -/
def ReportsAmbiguity (name : String) (a : Ambiguity) (d : Diagnostic) : Prop :=
  d.code = .macroAmbiguous ∧ d.related = a.candidates ∧
    d.message = "macro '" ++ name ++ "' is defined by several packages of the same priority: "
      ++ ", ".intercalate a.candidates

theorem macroAmbiguityFinding?_eq_some {d : Diagnostic}
    (h : m.macroAmbiguityFinding? c (m.strictResolver c registry) name = some d) :
    ∃ a, (m.strictResolver c registry).find name none = .error a ∧ ReportsAmbiguity name a d := by
  unfold macroAmbiguityFinding? at h
  split at h
  · cases h
  · rename_i a ha
    cases h
    exact ⟨a, ha, rfl, rfl, rfl⟩

theorem isSome_macroAmbiguityFinding? :
    (m.macroAmbiguityFinding? c (m.strictResolver c registry) name).isSome = true ↔
      Contested ((m.macroResolver c registry {}).candidates name) := by
  unfold macroAmbiguityFinding?
  split
  · rename_i id? hok
    refine iff_of_false (by simp) fun hcontested => ?_
    have herror : (m.strictResolver c registry).find name none =
        .error ⟨.macroDef, name, importedIds ((m.macroResolver c registry {}).candidates name)⟩ :=
      find_eq_error_iff.2 ⟨hcontested, rfl, rfl⟩
    rw [hok] at herror
    cases herror
  · rename_i a ha
    exact iff_of_true rfl (find_eq_error_iff.1 ha).1

/-- The names that validation reports. -/
def ambiguousNames (m : Manifest) (c : Config) (registry : Registry) : List String :=
  m.macroNames.filter fun name => (m.macroAmbiguityFinding? c (m.strictResolver c registry) name).isSome

theorem mem_ambiguousNames :
    name ∈ m.ambiguousNames c registry ↔ Contested ((m.macroResolver c registry {}).candidates name) := by
  unfold ambiguousNames
  rw [List.mem_filter, isSome_macroAmbiguityFinding?, and_iff_right_of_imp]
  intro hcontested
  exact mem_macroNames.2 (mem_names_of_contested hcontested)

/-- What a partial function makes of the elements that it is defined on. -/
theorem forall₂_filterMap {α β : Type} (f : α → Option β) (l : List α) :
    List.Forall₂ (fun a b => f a = some b) (l.filter fun a => (f a).isSome) (l.filterMap f) := by
  induction l with
  | nil => exact .nil
  | cons a l ih =>
    cases ha : f a with
    | none => simpa [ha] using ih
    | some b => simpa [ha] using ih

/-- **Validation finds every ambiguous macro.** If the adapters of the configuration are accepted, the
report has one finding for each name whose lookup the strict policy refuses, in the order of the names,
with the macros that the lookup reports. If it has none, no lookup of a name or of a materialization fails,
whatever the policy. -/
theorem macroAmbiguity_reported (m : Manifest) (c : Config) (timestamp : String)
    (h : c.registry = .ok registry) :
    ∃ r, m.validate? c timestamp = .ok r ∧
      (∃ names : List String, names.Pairwise (· < ·) ∧
        (∀ name allow, name ∈ names ↔
          ∃ a, (m.macroResolver c registry ⟨allow, true⟩).find name none = .error a) ∧
        List.Forall₂ (fun name d => ∀ allow, ∃ a,
            (m.macroResolver c registry ⟨allow, true⟩).find name none = .error a ∧ ReportsAmbiguity name a d)
          names (withCode .macroAmbiguous r.diagnostics)) ∧
      (withCode .macroAmbiguous r.diagnostics = [] → ∀ policy,
        (∀ name, ∃ id?, (m.macroResolver c registry policy).find name none = .ok id?) ∧
        ∀ materialization, ∃ id?,
          (m.macroResolver c registry policy).findMaterialization materialization = .ok id?) := by
  refine ⟨m.validate c timestamp, validate?_eq, ?_⟩
  rw [diagnostics_validate, withCode_macroAmbiguous h]
  constructor
  · refine ⟨m.ambiguousNames c registry, pairwise_macroNames.filter _, fun name allow => ?_, ?_⟩
    · rw [mem_ambiguousNames]
      constructor
      · intro hcontested
        exact ⟨_, find_eq_error_iff.2 ⟨hcontested, rfl, rfl⟩⟩
      · rintro ⟨a, ha⟩
        exact (find_eq_error_iff.1 ha).1
    · refine (forall₂_filterMap _ m.macroNames).imp fun name d hd allow => ?_
      obtain ⟨a, ha, hreports⟩ := macroAmbiguityFinding?_eq_some hd
      obtain ⟨hcontested, -, rfl⟩ := find_eq_error_iff.1 ha
      exact ⟨_, find_eq_error_iff.2 ⟨hcontested, rfl, rfl⟩, hreports⟩
  · intro hnone policy
    have huncontested : ∀ name, ¬ Contested ((m.macroResolver c registry policy).candidates name) := by
      intro name hcontested
      obtain ⟨hname, hsome⟩ := List.mem_filter.1 (mem_ambiguousNames.2 hcontested)
      rw [List.filterMap_eq_nil_iff.1 hnone name hname] at hsome
      cases hsome
    exact ⟨fun name => exists_choose_eq_ok (huncontested name), findMaterialization_eq_ok huncontested⟩

/-- Two imported packages define `m`, so it is reported with both of its macros. -/
theorem macroAmbiguity_reported_pair :
    let m : Manifest := (({} : Manifest).addMacro (.ofName "p" "m")).addMacro (.ofName "q" "m")
    ({} : Config).registry = .ok Registry.builtin ∧
      ∃ r, m.validate? {} "now" = .ok r ∧
        ∃ d ∈ r.diagnostics, ReportsAmbiguity "m" ⟨.macroDef, "m", ["macro.p.m", "macro.q.m"]⟩ d := by
  intro m
  have hregistry : ({} : Config).registry = .ok Registry.builtin := by decide +kernel
  have hrefused : (m.macroResolver {} Registry.builtin ⟨true, true⟩).find "m" none =
      .error ⟨.macroDef, "m", ["macro.p.m", "macro.q.m"]⟩ := by
    have hcandidates : (m.macroResolver {} Registry.builtin ⟨true, true⟩).candidates "m" =
        [⟨"macro.p.m", "p", .imported⟩, ⟨"macro.q.m", "q", .imported⟩] := by
      unfold MacroResolver.candidates
      rw [List.mergeSort_of_pairwise (by decide +kernel)]
      decide +kernel
    rw [MacroResolver.find, hcandidates]
    rfl
  obtain ⟨r, hr, ⟨names, -, hnames, hfindings⟩, -⟩ := macroAmbiguity_reported m {} "now" hregistry
  obtain ⟨hlength, hreports⟩ := List.forall₂_iff_get.1 hfindings
  obtain ⟨i, hi, hname⟩ := List.mem_iff_getElem.1 ((hnames "m" true).2 ⟨_, hrefused⟩)
  obtain ⟨a, ha, hreport⟩ := hreports i hi (hlength ▸ hi) true
  rw [List.get_eq_getElem, hname] at ha hreport
  rw [hrefused] at ha
  cases ha
  exact ⟨hregistry, r, hr, _, List.mem_of_mem_filter (List.getElem_mem _), hreport⟩

end Manifest

end Lineage
