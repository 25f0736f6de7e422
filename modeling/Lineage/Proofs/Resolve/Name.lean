import Lineage.Graph.Lemmas
import Lineage.Resolve.Name
import Mathlib.Data.List.Sort
import Mathlib.Data.String.Basic

/-!
# Names are never guessed

A lookup by name goes through three steps: candidates are collected, one of several versions is taken for
each package, and the best rank is picked from. Here each step is a fact about the nodes themselves:
`collapseVersions_eq` and `filter_representatives` for the versions, `bestRanked_map` for the rank and
`picked_pick` for the pick. Together they say what `ref()` means (`resolveRef_never_guesses`).
-/

namespace Lineage

variable {scope : Scope} {package : Option String} {p : String}

/-! ## Picking -/

/-- The artifacts that an outcome names. -/
def Resolution.ids : Resolution → List NodeId
  | .found id => [id]
  | .notFound => []
  | .ambiguous ids => ids

/-- What is picked from stands in the outcome, and nothing else. -/
theorem mem_ids_pick {cs : List Candidate} {id : NodeId} : id ∈ (pick cs).ids ↔ ∃ c ∈ cs, c.id = id := by
  match cs with
  | [] => simp [pick, Resolution.ids]
  | [c] => simp [pick, Resolution.ids, eq_comm]
  | c :: d :: rest => simp only [pick, Resolution.ids, List.mem_mergeSort, List.mem_map]

/-- The outcome for exactly these artifacts: none is not found, a single one is found, and several are
ambiguous, in the order of their identities. -/
structure Picked (ids : List NodeId) (r : Resolution) : Prop where
  notFound : r = .notFound ↔ ids = []
  found (id : NodeId) : r = .found id ↔ ids = [id]
  ambiguous (sorted : List NodeId) :
    r = .ambiguous sorted ↔ 2 ≤ ids.length ∧ sorted.Perm ids ∧ sorted.Pairwise (· ≤ ·)

theorem eq_mergeSort_iff {ids sorted : List NodeId} :
    sorted = ids.mergeSort (· ≤ ·) ↔ sorted.Perm ids ∧ sorted.Pairwise (· ≤ ·) := by
  have hsorted : (ids.mergeSort (· ≤ ·)).Pairwise (· ≤ ·) := List.pairwise_mergeSort' (· ≤ ·) ids
  constructor
  · rintro rfl
    exact ⟨List.mergeSort_perm _ _, hsorted⟩
  · rintro ⟨hperm, h⟩
    exact (hperm.trans (List.mergeSort_perm _ _).symm).eq_of_pairwise' h hsorted

theorem picked_pick (cs : List Candidate) : Picked (cs.map (·.id)) (pick cs) := by
  match cs with
  | [] => constructor <;> simp [pick]
  | [c] => constructor <;> simp [pick]
  | c :: d :: rest =>
    constructor
    · simp [pick]
    · simp [pick]
    · intro sorted
      simp only [pick, Resolution.ambiguous.injEq]
      rw [eq_comm, eq_mergeSort_iff]
      simp

/-! ## Ranking -/

/-- The nodes of the package that comes first: the given one, or else the first of the two packages of the
scope that has any, or else all. -/
def ladder (scope : Scope) (package : Option String) (nodes : List Node) : List Node :=
  let inPackage (p : String) := nodes.filter (·.packageName == p)
  match package with
  | some p => inPackage p
  | none =>
    if ∃ n ∈ nodes, n.packageName = scope.package then inPackage scope.package
    else if ∃ n ∈ nodes, n.packageName = scope.project then inPackage scope.project
    else nodes

/-- A node as a candidate. -/
def Node.candidate (n : Node) : Candidate := ⟨n.uniqueId, n.packageName⟩

theorem mem_of_mem_bestRanked {cs : List Candidate} {c : Candidate} (h : c ∈ bestRanked scope package cs) :
    c ∈ cs := by
  have hin : ∀ p, c ∈ inPackage p cs → c ∈ cs := fun p hc => (List.mem_filter.1 hc).1
  unfold bestRanked at h
  split at h
  · exact hin _ h
  · split at h
    · split at h
      · exact h
      · exact hin _ h
    · exact hin _ h

theorem inPackage_map (nodes : List Node) :
    inPackage p (nodes.map Node.candidate) = (nodes.filter (·.packageName == p)).map Node.candidate := by
  rw [inPackage, List.filter_map]
  rfl

theorem filter_package_eq_nil_iff {nodes : List Node} :
    nodes.filter (·.packageName == p) = [] ↔ ¬ ∃ n ∈ nodes, n.packageName = p := by
  simp [List.filter_eq_nil_iff]

theorem bestRanked_map (scope : Scope) (package : Option String) (nodes : List Node) :
    bestRanked scope package (nodes.map Node.candidate) = (ladder scope package nodes).map Node.candidate := by
  cases package with
  | some p => exact inPackage_map nodes
  | none =>
    unfold bestRanked ladder
    simp only [inPackage_map]
    -- Either package counts only where it has a node, which is where the match goes past the empty list.
    by_cases hpackage : ∃ n ∈ nodes, n.packageName = scope.package
    · rw [if_pos hpackage]
      split
      · rename_i hnil
        exact absurd hpackage (filter_package_eq_nil_iff.1 (List.map_eq_nil_iff.1 hnil))
      · rfl
    · rw [if_neg hpackage, filter_package_eq_nil_iff.2 hpackage, List.map_nil]
      by_cases hproject : ∃ n ∈ nodes, n.packageName = scope.project
      · rw [if_pos hproject]
        dsimp only
        split
        · rename_i hnil
          exact absurd hproject (filter_package_eq_nil_iff.1 (List.map_eq_nil_iff.1 hnil))
        · rfl
      · rw [if_neg hproject, filter_package_eq_nil_iff.2 hproject, List.map_nil]

/-! ## Versions -/

theorem preferredVersion_mem {nodes : List Node} {n : Node} (h : preferredVersion nodes = some n) :
    n ∈ nodes := by
  have hlater : ∀ (rest : List Node) (first : Node), rest.foldl laterVersion first ∈ first :: rest := by
    intro rest
    induction rest with
    | nil => exact fun _ => List.mem_cons_self
    | cons next rest ih =>
      intro first
      have hstep : laterVersion first next = first ∨ laterVersion first next = next := by
        unfold laterVersion
        split
        · exact .inl rfl
        · exact .inr rfl
      rw [List.foldl_cons]
      rcases List.mem_cons.1 (ih (laterVersion first next)) with h | h
      · rw [h]
        rcases hstep with hs | hs <;> simp [hs]
      · exact List.mem_cons_of_mem _ (List.mem_cons_of_mem _ h)
  cases nodes with
  | nil => cases h
  | cons first rest =>
    obtain rfl := Option.some.inj h
    cases hf : (first :: rest).find? isLatest with
    | none => exact hlater rest first
    | some n => exact List.mem_of_find?_eq_some hf

/-- Whether several nodes of one package stand for versions of one thing. -/
def AreVersions (nodes : List Node) : Prop := 2 ≤ nodes.length ∧ ∀ n ∈ nodes, n.version.isSome = true

theorem collapsePackage_of_versions {nodes : List Node} (h : AreVersions nodes) :
    ∃ n ∈ nodes, collapsePackage nodes = [n] := by
  obtain ⟨htwo, hall⟩ := h
  match nodes, htwo with
  | first :: rest, htwo =>
    have hsome : preferredVersion (first :: rest) =
        some (((first :: rest).find? isLatest).getD (rest.foldl laterVersion first)) := rfl
    refine ⟨_, preferredVersion_mem hsome, ?_⟩
    have hcond : (decide (1 < (first :: rest).length) && (first :: rest).all (·.version.isSome)) = true := by
      rw [Bool.and_eq_true, decide_eq_true_iff, List.all_eq_true]
      exact ⟨htwo, hall⟩
    rw [collapsePackage, if_pos hcond, hsome]
    rfl

theorem collapsePackage_of_not_versions {nodes : List Node} (h : ¬ AreVersions nodes) :
    collapsePackage nodes = nodes := by
  have hcond : ¬ (decide (1 < nodes.length) && nodes.all (·.version.isSome)) = true := by
    rw [Bool.and_eq_true, decide_eq_true_iff, List.all_eq_true]
    exact h
  rw [collapsePackage, if_neg hcond]

theorem mem_of_mem_collapsePackage {nodes : List Node} {n : Node} (h : n ∈ collapsePackage nodes) :
    n ∈ nodes := by
  by_cases hv : AreVersions nodes
  · obtain ⟨m, hm, heq⟩ := collapsePackage_of_versions hv
    rw [heq, List.mem_singleton] at h
    exact h ▸ hm
  · rwa [collapsePackage_of_not_versions hv] at h

/-- The packages of these nodes, each once. -/
def packagesOf (nodes : List Node) : List String :=
  (Std.ExtTreeSet.ofList (nodes.map (·.packageName)) compare).toList

/-- Package by package, what stays of the nodes. -/
def representatives (nodes : List Node) : List Node :=
  (packagesOf nodes).flatMap fun p => collapsePackage (nodes.filter (·.packageName == p))

theorem collapseVersions_eq (nodes : List Node) :
    collapseVersions nodes = (representatives nodes).map Node.candidate := by
  unfold collapseVersions representatives
  rw [List.map_flatMap]
  refine List.flatMap_congr fun p _ => List.map_congr_left fun n hn => ?_
  have hp := (List.mem_filter.1 (mem_of_mem_collapsePackage hn)).2
  rw [Node.candidate, beq_iff_eq.1 hp]

theorem mem_of_mem_representatives {nodes : List Node} {n : Node} (h : n ∈ representatives nodes) :
    n ∈ nodes := by
  obtain ⟨p, -, hn⟩ := List.mem_flatMap.1 h
  exact (List.mem_filter.1 (mem_of_mem_collapsePackage hn)).1

/-- Lists that are joined under different keys can be told apart by the key. -/
theorem filter_flatMap_of_nodup {α : Type} {key : α → String} {f : String → List α} {ps : List String}
    (hps : ps.Nodup) (hkey : ∀ q, ∀ a ∈ f q, key a = q) :
    (ps.flatMap f).filter (key · == p) = if p ∈ ps then f p else [] := by
  induction ps with
  | nil => rfl
  | cons q ps ih =>
    obtain ⟨hq, hps⟩ := List.nodup_cons.1 hps
    rw [List.flatMap_cons, List.filter_append, ih hps]
    by_cases hpq : p = q
    · subst hpq
      have hself : (f p).filter (key · == p) = f p := by
        rw [List.filter_eq_self]
        intro a ha
        exact beq_iff_eq.2 (hkey p a ha)
      rw [if_neg hq, if_pos List.mem_cons_self, hself, List.append_nil]
    · have hnone : (f q).filter (key · == p) = [] := by
        rw [List.filter_eq_nil_iff]
        intro a ha heq
        exact hpq ((beq_iff_eq.1 heq).symm.trans (hkey q a ha))
      rw [hnone, List.nil_append]
      simp only [List.mem_cons, hpq, false_or]

theorem nodup_packagesOf {nodes : List Node} : (packagesOf nodes).Nodup := by
  refine (Std.ExtTreeSet.distinct_toList (t := Std.ExtTreeSet.ofList _ compare)).imp fun hne heq => ?_
  exact hne (compare_eq_iff_eq.2 heq)

theorem mem_packagesOf {nodes : List Node} : p ∈ packagesOf nodes ↔ ∃ n ∈ nodes, n.packageName = p := by
  unfold packagesOf
  simp [Std.ExtTreeSet.mem_toList, Std.ExtTreeSet.mem_ofList]

/-- What stays of each package is decided by the nodes of that package. -/
theorem filter_representatives (nodes : List Node) (p : String) :
    (representatives nodes).filter (·.packageName == p) =
      collapsePackage (nodes.filter (·.packageName == p)) := by
  have hkey : ∀ q, ∀ n ∈ collapsePackage (nodes.filter (·.packageName == q)), n.packageName = q :=
    fun q n hn => beq_iff_eq.1 (List.mem_filter.1 (mem_of_mem_collapsePackage hn)).2
  unfold representatives
  rw [filter_flatMap_of_nodup nodup_packagesOf hkey]
  split
  · rfl
  · rename_i hp
    rw [mem_packagesOf, ← filter_package_eq_nil_iff] at hp
    rw [hp]
    rfl

/-! ## References -/

/-- Whether a reference with this name, and with this version if it has one, can mean the node. -/
def Node.Answers (n : Node) (name : String) (version : Option String) : Prop :=
  n.resourceType.isRefable = true ∧ n.name = name ∧ ∀ v ∈ version, n.versionText = some (Version.normalize v)

instance (n : Node) (name : String) (version : Option String) : Decidable (n.Answers name version) :=
  inferInstanceAs (Decidable (_ ∧ _ ∧ _))

/-- Package by package, one of several versions is kept, and every node of any other package. -/
def KeepsOneVersion (nodes kept : List Node) : Prop :=
  ∀ p, (AreVersions (nodes.filter (·.packageName == p)) →
      ∃ n ∈ nodes.filter (·.packageName == p), kept.filter (·.packageName == p) = [n]) ∧
    (¬ AreVersions (nodes.filter (·.packageName == p)) →
      kept.filter (·.packageName == p) = nodes.filter (·.packageName == p))

theorem keepsOneVersion_representatives (nodes : List Node) : KeepsOneVersion nodes (representatives nodes) := by
  intro p
  rw [filter_representatives]
  exact ⟨collapsePackage_of_versions, collapsePackage_of_not_versions⟩

namespace Manifest

variable {m : Manifest} {name : String} {version : Option String}

/-- A package with one model in these versions, each under its identity. -/
def ofVersions (versions : List (NodeId × String)) : Manifest where
  nodes := .ofList
    (versions.map fun (id, v) =>
      (id, { uniqueId := id, name := "dim", resourceType := .model, packageName := "p", version := some (.str v) }))
    compare

/-- The nodes that a reference can mean. -/
def answering (m : Manifest) (name : String) (version : Option String) : List Node :=
  m.nodes.values.filter (·.Answers name version)

theorem refTargets_eq : m.refTargets name (version.map Version.normalize) = m.answering name version := by
  unfold refTargets answering
  refine List.filter_congr fun n _ => ?_
  rw [Bool.eq_iff_iff, decide_eq_true_iff]
  cases version <;> simp [Node.Answers, and_assoc]

/-- The nodes among which packages are compared. -/
def contenders (m : Manifest) (name : String) (version : Option String) : List Node :=
  if version.isSome then m.answering name version else representatives (m.answering name version)

theorem mem_nodes_of_mem_contenders {n : Node} (h : n ∈ m.contenders name version) :
    n ∈ m.answering name version := by
  unfold contenders at h
  split at h
  · exact h
  · exact mem_of_mem_representatives h

theorem resolveRef_eq :
    m.resolveRef scope name package version =
      pick ((ladder scope package (m.contenders name version)).map Node.candidate) := by
  rw [← bestRanked_map]
  unfold resolveRef rank contenders
  dsimp only
  rw [refTargets_eq, Option.isSome_map]
  cases version with
  | some v => rfl
  | none => simp only [Option.isSome_none, Bool.false_eq_true, if_false, collapseVersions_eq]

/-- What contends in one package depends on the nodes of that package only. -/
theorem filter_contenders_congr {m' : Manifest} (h : m'.nodesOfPackage p = m.nodesOfPackage p) :
    (m'.contenders name version).filter (·.packageName == p) =
      (m.contenders name version).filter (·.packageName == p) := by
  have hanswering : (m'.answering name version).filter (·.packageName == p) =
      (m.answering name version).filter (·.packageName == p) := by
    have hswap : ∀ m : Manifest, (m.answering name version).filter (·.packageName == p) =
        (m.nodesOfPackage p).filter (·.Answers name version) := by
      intro m
      unfold answering nodesOfPackage
      rw [List.filter_comm]
    rw [hswap, hswap, h]
  unfold contenders
  split
  · exact hanswering
  · rw [filter_representatives, filter_representatives, hanswering]

/-- Where the package of the reference has a node that answers, one of its nodes contends. -/
theorem exists_contender {n : Node} (h : n ∈ m.answering name version) :
    ∃ k ∈ m.contenders name version, k.packageName = n.packageName := by
  unfold contenders
  split
  · exact ⟨n, h, rfl⟩
  · by_contra hnone
    rw [← filter_package_eq_nil_iff, filter_representatives] at hnone
    have hmem : n ∈ (m.answering name version).filter (·.packageName == n.packageName) :=
      List.mem_filter.2 ⟨h, beq_self_eq_true _⟩
    by_cases hv : AreVersions ((m.answering name version).filter (·.packageName == n.packageName))
    · obtain ⟨k, -, hk⟩ := collapsePackage_of_versions hv
      rw [hnone] at hk
      cases hk
    · rw [collapsePackage_of_not_versions hv] at hnone
      rw [hnone] at hmem
      cases hmem

/-- **Names are never guessed.** A reference is settled among the nodes that have its name and, if it has
one, its version; without a version, one of several versions stands for its package. Of these the first
package on the ladder counts. Its nodes are not found if there is none, found if there is one, and otherwise
all reported in order. Without an explicit package, other packages do not matter as soon as the package of
the reference has a node that answers. -/
theorem resolveRef_never_guesses (m : Manifest) (scope : Scope) (name : String)
    (package version : Option String) :
    (∃ kept, (if version.isSome then kept = m.answering name version
          else KeepsOneVersion (m.answering name version) kept) ∧
        Picked ((ladder scope package kept).map (·.uniqueId)) (m.resolveRef scope name package version)) ∧
      ((∃ n ∈ m.answering name version, n.packageName = scope.package) →
        ∀ m' : Manifest, m'.nodesOfPackage scope.package = m.nodesOfPackage scope.package →
          m'.resolveRef scope name none version = m.resolveRef scope name none version) := by
  constructor
  · refine ⟨m.contenders name version, ?_, ?_⟩
    · unfold contenders
      split
      · rfl
      · exact keepsOneVersion_representatives _
    · have hpicked := picked_pick ((ladder scope package (m.contenders name version)).map Node.candidate)
      rw [List.map_map] at hpicked
      rw [resolveRef_eq]
      exact hpicked
  · rintro ⟨n, hn, hpackage⟩ m' hsame
    have hfilter : (m'.contenders name version).filter (·.packageName == scope.package) =
        (m.contenders name version).filter (·.packageName == scope.package) := filter_contenders_congr hsame
    have hhere : ∃ k ∈ m.contenders name version, k.packageName = scope.package :=
      hpackage ▸ exists_contender hn
    have hthere : ∃ k ∈ m'.contenders name version, k.packageName = scope.package := by
      by_contra hnone
      rw [← filter_package_eq_nil_iff, hfilter] at hnone
      exact filter_package_eq_nil_iff.1 hnone hhere
    rw [resolveRef_eq, resolveRef_eq]
    simp only [ladder, if_pos hhere, if_pos hthere, hfilter]

/-- Two versions in the package of the reference are one candidate, and the root project does not count
beside them, although it has a node of the version that is asked for. -/
example :
    let node (id package : String) (version : Option String) : NodeId × Node :=
      (id, { uniqueId := id, name := "orders", resourceType := .model, packageName := package
             version := version.map .str })
    let nodes := [node "a" "p" (some "1"), node "b" "p" (some "2.0"), node "c" "root" none,
      node "d" "root" (some "2")]
    let m : Manifest := { nodes := .ofList nodes compare }
    m.resolveRef ⟨"root", "p"⟩ "orders" none none = .found "b" ∧
      m.resolveRef ⟨"root", "p"⟩ "orders" none (some " 2") = .found "b" := by
  decide +kernel

end Manifest

end Lineage
