import Lineage.Proofs.Graph.Batches
import Lineage.Proofs.Manifest.Relink
import Lineage.Validate

/-!
# What the report says about the graph

The report lists what the checks find, each check under codes of its own (`withCode_findings`). Its
two checks of the graph do not link the manifest the way a plan does: one goes through the parent map,
the other searches the graph that leaves unknown dependencies out. They find nothing exactly if a plan
can be made (`validate_planned_iff`).
-/

namespace Lineage

variable {d : Diagnostic} {ds es : List Diagnostic} {k : DiagnosticCode} {codes : List DiagnosticCode}

/-! ## Findings by code -/

namespace Report

theorem diagnostics_foldl_add {r : Report} :
    (ds.foldl add r).diagnostics = r.diagnostics ++ ds := by
  induction ds generalizing r with
  | nil => exact (List.append_nil _).symm
  | cons d rest ih =>
    rw [List.foldl_cons, ih]
    exact List.append_assoc _ _ _

theorem diagnostics_ofDiagnostics {timestamp : String} :
    (ofDiagnostics timestamp ds).diagnostics = ds :=
  diagnostics_foldl_add

@[simp] theorem diagnostics_withGraphSize {r : Report} {nodes edges : Nat} :
    (r.withGraphSize nodes edges).diagnostics = r.diagnostics := rfl

@[simp] theorem diagnostics_withProject {r : Report} {project adapter : Option String} :
    (r.withProject project adapter).diagnostics = r.diagnostics := rfl

end Report

namespace Diagnostic

/-- The findings of one code, in order. -/
def withCode (k : DiagnosticCode) (ds : List Diagnostic) : List Diagnostic := ds.filter (·.code == k)

theorem mem_withCode : d ∈ withCode k ds ↔ d ∈ ds ∧ d.code = k := by
  unfold withCode
  rw [List.mem_filter, beq_iff_eq]

theorem withCode_append : withCode k (ds ++ es) = withCode k ds ++ withCode k es := List.filter_append ..

theorem withCode_eq_nil_iff : withCode k ds = [] ↔ ∀ d ∈ ds, d.code ≠ k := by
  unfold withCode
  rw [List.filter_eq_nil_iff]
  simp only [beq_iff_eq, ne_eq]

/-- What only findings of one code are can be looked for among those of the code. -/
theorem exists_withCode_iff {p : Diagnostic → Prop} (h : ∀ d, p d → d.code = k) :
    (∃ d ∈ withCode k ds, p d) ↔ ∃ d ∈ ds, p d := by
  refine exists_congr fun d => and_congr_left fun hp => ?_
  rw [mem_withCode, and_iff_left (h d hp)]

/-- Each of these findings has one of these codes. -/
def Coded (codes : List DiagnosticCode) (ds : List Diagnostic) : Prop := ∀ d ∈ ds, d.code ∈ codes

theorem Coded.withCode_eq_self (h : Coded [k] ds) : withCode k ds = ds := by
  unfold withCode
  rw [List.filter_eq_self]
  intro d hd
  exact beq_iff_eq.2 (List.mem_singleton.1 (h d hd))

theorem Coded.withCode_eq_nil (h : Coded codes ds) (hk : k ∉ codes) : withCode k ds = [] := by
  rw [withCode_eq_nil_iff]
  rintro d hd rfl
  exact hk (h d hd)

theorem coded_map {α : Type} {f : α → Diagnostic} {l : List α} (h : ∀ a, (f a).code = k) :
    Coded [k] (l.map f) := by
  intro d hd
  obtain ⟨a, -, rfl⟩ := List.mem_map.1 hd
  exact List.mem_singleton.2 (h a)

end Diagnostic

namespace Manifest

open Diagnostic

variable {m : Manifest} {c : Config} {lineup : Lineup} {g : Graph} {id parent : NodeId} {timestamp : String}

/-! ## The checks -/

theorem coded_danglingFindings : Coded [.graphDanglingDependency] (m.danglingFindings c) :=
  coded_map fun _ => rfl

theorem coded_cycleFindings : Coded [.graphCycle] (m.cycleFindings c g) := by
  intro d hd
  unfold cycleFindings at hd
  split at hd
  · cases hd
  · rw [List.mem_singleton.1 hd]
    exact List.mem_singleton_self _

theorem coded_duplicateSourceFindings : Coded [.sourceDuplicate] (m.duplicateSourceFindings c) :=
  coded_map fun _ => rfl

theorem coded_duplicateRefFindings : Coded [.refDuplicateInPackage] (m.duplicateRefFindings c) :=
  coded_map fun _ => rfl

theorem coded_declaredRefFindings : Coded [.refNotFound, .refAmbiguous] (m.declaredRefFindings c) := by
  intro d hd
  unfold declaredRefFindings at hd
  obtain ⟨⟨id, n⟩, -, hd⟩ := List.mem_flatMap.1 hd
  obtain ⟨r, -, hr⟩ := List.mem_filterMap.1 hd
  unfold declaredRefFinding? at hr
  dsimp only at hr
  split at hr
  · cases hr
  · cases hr
    exact List.mem_cons_self
  · cases hr
    exact List.mem_cons_of_mem _ List.mem_cons_self

theorem coded_missingMacroFindings : Coded [.macroNotFound] (m.missingMacroFindings c) :=
  coded_map fun _ => rfl

theorem coded_macroAmbiguityFindings :
    Coded [.macroAmbiguous, .warning] (m.macroAmbiguityFindings c lineup) := by
  intro d hd
  unfold macroAmbiguityFindings at hd
  split at hd
  · rw [List.mem_singleton.1 hd]
    exact List.mem_cons_of_mem _ List.mem_cons_self
  · obtain ⟨name, -, hname⟩ := List.mem_filterMap.1 hd
    unfold macroAmbiguityFinding? at hname
    split at hname
    · cases hname
    · cases hname
      exact List.mem_cons_self

/-- The checks in order, each with the codes of its findings and what it finds. -/
def checks (m : Manifest) (c : Config) (g : Graph) (lineup : Lineup := .byType) :
    List (List DiagnosticCode × List Diagnostic) :=
  [([.graphDanglingDependency], m.danglingFindings c),
    ([.graphCycle], m.cycleFindings c g),
    ([.sourceDuplicate], m.duplicateSourceFindings c),
    ([.refDuplicateInPackage], m.duplicateRefFindings c),
    ([.refNotFound, .refAmbiguous], m.declaredRefFindings c),
    ([.macroNotFound], m.missingMacroFindings c),
    ([.macroAmbiguous, .warning], m.macroAmbiguityFindings c lineup)]

theorem findings_eq : m.findings c g lineup = (m.checks c g lineup).flatMap (·.2) := by
  simp only [findings, checks, List.flatMap_cons, List.flatMap_nil, List.append_assoc, List.append_nil]

theorem coded_of_mem_checks : ∀ check ∈ m.checks c g lineup, Coded check.1 check.2 := by
  simp only [checks, List.forall_mem_cons]
  exact ⟨coded_danglingFindings, coded_cycleFindings, coded_duplicateSourceFindings,
    coded_duplicateRefFindings, coded_declaredRefFindings, coded_missingMacroFindings,
    coded_macroAmbiguityFindings, by simp⟩

/-- Findings of a code come from the checks that have it. -/
theorem withCode_findings :
    withCode k (m.findings c g lineup) =
      ((m.checks c g lineup).filter (k ∈ ·.1)).flatMap fun check => withCode k check.2 := by
  rw [findings_eq]
  have hcoded : ∀ check ∈ m.checks c g lineup, Coded check.1 check.2 := coded_of_mem_checks
  generalize m.checks c g lineup = checks at hcoded ⊢
  induction checks with
  | nil => rfl
  | cons check rest ih =>
    obtain ⟨hcheck, hrest⟩ := List.forall_mem_cons.1 hcoded
    rw [List.flatMap_cons, withCode_append, ih hrest]
    by_cases hk : k ∈ check.1
    · rw [List.filter_cons_of_pos (by simpa using hk), List.flatMap_cons]
    · rw [List.filter_cons_of_neg (by simpa using hk), hcheck.withCode_eq_nil hk, List.nil_append]

theorem withCode_dangling :
    withCode .graphDanglingDependency (m.findings c g lineup) = m.danglingFindings c := by
  rw [withCode_findings]
  simp [checks, coded_danglingFindings.withCode_eq_self]

theorem withCode_cycle : withCode .graphCycle (m.findings c g lineup) = m.cycleFindings c g := by
  rw [withCode_findings]
  simp [checks, coded_cycleFindings.withCode_eq_self]

/-! ## The checks of the graph -/

theorem mem_danglingDependencies :
    (id, parent) ∈ m.danglingDependencies ↔ parent ∈ m.parentsOf id ∧ parent ∉ m.memberIds := by
  unfold danglingDependencies parentsOf
  rw [Std.ExtTreeMap.getD_eq_getD_getElem?]
  simp only [List.mem_flatMap, List.mem_map, List.mem_filter, Prod.exists, Prod.mk.injEq,
    Std.ExtTreeMap.mem_toList_iff_getElem?_eq_some, Bool.not_eq_true', ← Bool.not_eq_true,
    contains_parentMap]
  constructor
  · rintro ⟨_, declared, hid, _, ⟨hmem, hnot⟩, rfl, rfl⟩
    rw [hid]
    exact ⟨hmem, hnot⟩
  · rintro ⟨hmem, hnot⟩
    cases hid : m.parentMap[id]? with
    | none =>
      rw [hid] at hmem
      exact absurd hmem List.not_mem_nil
    | some declared =>
      rw [hid] at hmem
      exact ⟨id, declared, hid, parent, ⟨hmem, hnot⟩, rfl, rfl⟩

theorem danglingFindings_eq_nil_iff : m.danglingFindings c = [] ↔ m.Closed := by
  unfold danglingFindings Closed
  rw [List.map_eq_nil_iff, List.eq_nil_iff_forall_not_mem, Prod.forall]
  simp only [mem_danglingDependencies, not_and, not_not]
  exact forall_comm

theorem cycleFindings_eq_nil_iff : m.cycleFindings c g = [] ↔ g.Acyclic := by
  rw [← Graph.findCycle_eq_none_iff]
  unfold cycleFindings
  cases g.findCycle with
  | none => exact iff_of_true rfl rfl
  | some members => exact iff_of_false (List.cons_ne_nil _ _) (Option.some_ne_none _)

/-! ## The report -/

theorem validate?_eq : m.validate? c timestamp lineup = .ok (m.validate c timestamp lineup) := by
  unfold validate?
  rw [linkKnown?_eq]
  rfl

theorem diagnostics_validate :
    (m.validate c timestamp lineup).diagnostics = m.findings c m.linkKnown lineup := by
  unfold validate reportOn
  rw [Report.diagnostics_withProject, Report.diagnostics_withGraphSize,
    Report.diagnostics_ofDiagnostics]

/-- Member by member, a manifest can be linked if everything that counts is a member. -/
theorem exists_linkIncremental_iff : (∃ g, m.linkIncremental = .ok g) ↔ m.Closed := by
  constructor
  · rintro ⟨g, hg⟩
    exact (linkIncremental_eq_ok hg).1
  · intro hm
    have hspec := linkIncremental_spec m
    rw [closed_iff.1 hm] at hspec
    obtain ⟨g, hg, -⟩ := hspec
    exact ⟨g, hg⟩

/-- **A manifest that passes validation can be planned.** If no two members share an identity, then
the manifest is validated without an error, and the report has neither a dangling dependency nor a
cycle exactly if both ways to link succeed, with equal graphs, and that graph has batches. -/
theorem validate_planned_iff (hm : m.memberIds.Nodup) (c : Config) (timestamp : String) :
    ∃ r, m.validate? c timestamp = .ok r ∧
      ((∀ d ∈ r.diagnostics, d.code ≠ .graphDanglingDependency ∧ d.code ≠ .graphCycle) ↔
        ∃ g bs, m.linkBulk = .ok g ∧ m.linkIncremental = .ok g ∧ g.batches = .ok bs) := by
  refine ⟨m.validate c timestamp, validate?_eq, ?_⟩
  have hclean : (∀ d ∈ (m.validate c timestamp).diagnostics,
      d.code ≠ .graphDanglingDependency ∧ d.code ≠ .graphCycle) ↔
        m.Closed ∧ m.linkKnown.Acyclic := by
    rw [forall₂_and, diagnostics_validate, ← withCode_eq_nil_iff, ← withCode_eq_nil_iff,
      withCode_dangling, withCode_cycle, danglingFindings_eq_nil_iff, cycleFindings_eq_nil_iff]
  have hbulk : m.linkBulk = m.linkIncremental := linkBulk_eq_of_nodup hm
  rw [hclean]
  constructor
  · rintro ⟨hclosed, hacyclic⟩
    obtain ⟨g, hg⟩ := exists_linkIncremental_iff.2 hclosed
    rw [← hbulk] at hg
    obtain ⟨-, rfl⟩ := linkBulk_eq_ok hg
    obtain ⟨bs, hbs⟩ := Graph.exists_batches_iff.2 hacyclic
    exact ⟨m.linkKnown, bs, hg, hbulk ▸ hg, hbs⟩
  · rintro ⟨g, bs, hg, hg', hbs⟩
    obtain ⟨-, rfl⟩ := linkBulk_eq_ok hg
    exact ⟨exists_linkIncremental_iff.1 ⟨_, hg'⟩, Graph.exists_batches_iff.1 ⟨bs, hbs⟩⟩

/-- Where `b` depends on `a`, nothing is found. -/
theorem validate_planned_iff_chain :
    let m := ofNodes [("a", .model, []), ("b", .model, ["a"])]
    m.memberIds.Nodup ∧
      ∃ r, m.validate? {} "now" = .ok r ∧
        ∀ d ∈ r.diagnostics, d.code ≠ .graphDanglingDependency ∧ d.code ≠ .graphCycle := by
  intro m
  have hm : m.memberIds.Nodup := by decide +kernel
  have hbulk : m.linkBulk = .ok m.linkKnown := by decide +kernel
  have hincremental : m.linkIncremental = .ok m.linkKnown := by decide +kernel
  have hbatches : m.linkKnown.batches = .ok [["a"], ["b"]] := by decide +kernel
  obtain ⟨r, hr, hiff⟩ := validate_planned_iff hm {} "now"
  exact ⟨hm, r, hr, hiff.2 ⟨m.linkKnown, [["a"], ["b"]], hbulk, hincremental, hbatches⟩⟩

end Manifest

end Lineage
