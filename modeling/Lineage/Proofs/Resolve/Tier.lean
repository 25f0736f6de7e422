import Lineage.Proofs.Manifest.Edits
import Lineage.Proofs.Resolve.Macro
import Mathlib.Data.List.Sort

/-!
# The highest tier decides

One stable sort puts the macros of a name in order, and leaving macros out before or after sorting comes to the
same (`filter_mergeSort`). So the macros of one tier are found in an order that no other tier has a part in
(`MacroResolver.inTier_eq`), and a lookup looks only at the highest tier that has any
(`MacroResolver.find_eq_ofTiers`).
-/

namespace Lineage

/-! ## Sorting a part -/

section Sorting

variable {α : Type} {le : α → α → Bool}

/-- Where the elements that a predicate holds for stand first, they can be told from the others. -/
theorem append_inj_of_forall {q : α → Bool} {front back front' back' : List α}
    (h : front ++ back = front' ++ back') (hfront : ∀ a ∈ front, q a = true) (hback : ∀ a ∈ back, q a = false)
    (hfront' : ∀ a ∈ front', q a = true) (hback' : ∀ a ∈ back', q a = false) : front = front' ∧ back = back' := by
  have hnone : ∀ {l : List α}, (∀ a ∈ l, q a = false) → l.takeWhile q = [] := by
    intro l hl
    cases l with
    | nil => rfl
    | cons a l => rw [List.takeWhile_cons, hl a List.mem_cons_self]; rfl
  have htake := congrArg (List.takeWhile q) h
  rw [List.takeWhile_append_of_pos hfront, List.takeWhile_append_of_pos hfront', hnone hback, hnone hback',
    List.append_nil, List.append_nil] at htake
  subst htake
  exact ⟨rfl, List.append_cancel_left h⟩

/-- A stable sort puts a part of a list in the same order as the whole. -/
theorem filter_mergeSort (trans : ∀ a b c, le a b = true → le b c = true → le a c = true)
    (total : ∀ a b, (le a b || le b a) = true) (p : α → Bool) (l : List α) :
    (l.mergeSort le).filter p = (l.filter p).mergeSort le := by
  induction l with
  | nil => simp
  | cons a l ih =>
    obtain ⟨front, back, hcons, hsorted, hfront⟩ := List.mergeSort_cons trans total a l
    rw [hsorted, List.filter_append] at ih
    rw [hcons, List.filter_append]
    by_cases ha : p a = true
    · rw [List.filter_cons_of_pos ha, List.filter_cons_of_pos ha]
      obtain ⟨front', back', hcons', hsorted', hfront'⟩ := List.mergeSort_cons trans total a (l.filter p)
      have hback : ∀ b ∈ back, le a b = true := by
        have hpairs := hcons ▸ List.pairwise_mergeSort trans total (a :: l)
        exact (List.pairwise_cons.1 (List.pairwise_append.1 hpairs).2.1).1
      have hback' : ∀ b ∈ back', le a b = true := by
        have hpairs := hcons' ▸ List.pairwise_mergeSort trans total (a :: l.filter p)
        exact (List.pairwise_cons.1 (List.pairwise_append.1 hpairs).2.1).1
      -- In both lists `a` stands behind all that are less and before all others.
      obtain ⟨rfl, rfl⟩ := append_inj_of_forall (ih.trans hsorted') (fun b hb => hfront b (List.mem_of_mem_filter hb))
        (fun b hb => by simp [hback b (List.mem_of_mem_filter hb)]) hfront' (fun b hb => by simp [hback' b hb])
      rw [hcons']
    · rw [List.filter_cons_of_neg ha, List.filter_cons_of_neg ha, ih]

end Sorting

namespace MacroResolver

variable {r r' : MacroResolver} {name : String} {t : Locality} {a b c : MacroCandidate} {cs rest : List MacroCandidate}

/-! ## The order of candidates -/

/-- A macro as a candidate. -/
def candidate (r : MacroResolver) (d : MacroDef) : MacroCandidate :=
  ⟨d.uniqueId, d.packageName, r.locality d.packageName⟩

/-- How candidates compare. -/
def order (r : MacroResolver) : MacroCandidate → MacroCandidate → Ordering :=
  compareLex (compareOn (·.locality.depth))
    (compareLex (compareOn fun c => r.internalRank c.packageName) (compareOn (·.packageName)))

instance : Std.TransCmp r.order := by unfold order; infer_instance

theorem before_eq (a b : MacroCandidate) : r.before a b = (r.order a b).isLE := by
  unfold before order
  simp only [compareLex, compareOn]
  cases compare a.locality.depth b.locality.depth with
  | lt => rfl
  | gt => rfl
  | eq =>
    cases compare (r.internalRank a.packageName) (r.internalRank b.packageName) with
    | lt => rfl
    | gt => rfl
    | eq =>
      change decide (a.packageName ≤ b.packageName) = (compare a.packageName b.packageName).isLE
      rw [Bool.eq_iff_iff, decide_eq_true_iff, Ordering.isLE_iff_ne_gt]
      exact compare_le_iff_le.symm

theorem before_trans (a b c : MacroCandidate) (hab : r.before a b = true) (hbc : r.before b c = true) :
    r.before a c = true := by
  rw [before_eq] at hab hbc ⊢
  exact Std.TransCmp.isLE_trans hab hbc

theorem before_total (a b : MacroCandidate) : (r.before a b || r.before b a) = true := by
  have hswap : r.order b a = (r.order a b).swap := Std.OrientedCmp.eq_swap
  rw [before_eq, before_eq, hswap]
  cases r.order a b <;> rfl

/-- Whether a candidate may be listed before another: by tier, inside the internal tier by the first place of the
package, and then by package name. -/
def ListedBefore (r : MacroResolver) (a b : MacroCandidate) : Prop :=
  a.locality.depth < b.locality.depth ∨ a.locality = b.locality ∧
    (a.locality = .core ∧ r.internalPackages.idxOf a.packageName < r.internalPackages.idxOf b.packageName ∨
      (a.locality = .core → r.internalPackages.idxOf a.packageName = r.internalPackages.idxOf b.packageName) ∧
        a.packageName ≤ b.packageName)

theorem depth_injective : Function.Injective Locality.depth := by
  intro s t h
  cases s <;> cases t <;> first | rfl | cases h

theorem mem_candidates :
    c ∈ r.candidates name ↔ ∃ d ∈ r.macros, d.name = name ∧ r.candidate d = c := by
  unfold candidates
  simp only [List.mem_mergeSort, List.mem_map, List.mem_filter, beq_iff_eq, and_assoc]
  rfl

/-- Outside the internal tier, the packages of one tier have one place. -/
theorem internalRank_eq {p q : String} (h : r.locality p = r.locality q) (hp : r.locality p ≠ .core) :
    r.internalRank p = r.internalRank q := by
  have hroot : ∀ p, r.locality p = .root → p = r.rootProject := by
    intro p h
    unfold locality at h
    split at h
    · assumption
    · split at h <;> cases h
  have himported : ∀ p, r.locality p = .imported → r.internalRank p = r.internalPackages.length := by
    intro p h
    unfold locality at h
    split at h
    · cases h
    · split at h
      · cases h
      · rename_i hnot
        exact List.idxOf_eq_length (by simpa using hnot)
  cases ht : r.locality p with
  | core => exact absurd ht hp
  | root => rw [hroot p ht, hroot q (h ▸ ht)]
  | imported => rw [himported p ht, himported q (h ▸ ht)]

theorem listedBefore_of_before (ha : r.locality a.packageName = a.locality) (hb : r.locality b.packageName = b.locality)
    (h : r.before a b = true) : r.ListedBefore a b := by
  rw [before_eq, order, compareLex, Ordering.isLE_then_iff_or, compareLex, Ordering.isLE_then_iff_or] at h
  simp only [compareOn, compare_lt_iff_lt, compare_eq_iff_eq, Ordering.isLE_iff_ne_gt, compare_le_iff_le] at h
  obtain hdepth | ⟨hdepth, h⟩ := h
  · exact .inl hdepth
  · have hsame := depth_injective hdepth
    refine .inr ⟨hsame, ?_⟩
    obtain hplace | ⟨hplace, hname⟩ := h
    · by_cases hcore : a.locality = .core
      · exact .inl ⟨hcore, hplace⟩
      · have hrank := internalRank_eq (ha.trans (hsame.trans hb.symm)) (ha ▸ hcore)
        exact absurd hplace (hrank ▸ lt_irrefl _)
    · exact .inr ⟨fun _ => hplace, hname⟩

theorem pairwise_candidates : (r.candidates name).Pairwise r.ListedBefore := by
  have hlocal : ∀ c ∈ r.candidates name, r.locality c.packageName = c.locality := by
    intro c hc
    obtain ⟨d, -, -, rfl⟩ := mem_candidates.1 hc
    rfl
  have hsorted : (r.candidates name).Pairwise fun a b => r.before a b = true :=
    List.pairwise_mergeSort before_trans before_total _
  exact hsorted.imp_of_mem fun ha hb h => listedBefore_of_before (hlocal _ ha) (hlocal _ hb) h

/-- A list of the macros of this name: each once, in order, and those of one package as they come. -/
structure Listing (r : MacroResolver) (name : String) (cs : List MacroCandidate) : Prop where
  once : cs.Perm ((r.macros.filter (·.name == name)).map r.candidate)
  sorted : cs.Pairwise r.ListedBefore
  stable (package : String) :
    cs.filter (·.packageName == package) =
      (r.macros.filter fun d => d.name == name && d.packageName == package).map r.candidate

theorem listing_candidates : Listing r name (r.candidates name) where
  once := List.mergeSort_perm _ _
  sorted := pairwise_candidates
  stable package := by
    have hfilter : ((r.macros.filter (·.name == name)).map r.candidate).filter (·.packageName == package) =
        (r.macros.filter fun d => d.name == name && d.packageName == package).map r.candidate := by
      rw [List.filter_map, List.filter_filter]
      simp only [Function.comp_def, Bool.and_comm]
      rfl
    change (((r.macros.filter (·.name == name)).map r.candidate).mergeSort r.before).filter _ = _
    rw [filter_mergeSort before_trans before_total, hfilter]
    refine List.mergeSort_of_pairwise (List.pairwise_of_forall_mem_list fun a ha b hb => ?_)
    obtain ⟨d, hd, rfl⟩ := List.mem_map.1 ha
    obtain ⟨e, he, rfl⟩ := List.mem_map.1 hb
    have hsame : d.packageName = e.packageName := by
      have hd := (List.mem_filter.1 hd).2
      have he := (List.mem_filter.1 he).2
      simp only [Bool.and_eq_true, beq_iff_eq] at hd he
      rw [hd.2, he.2]
    rw [before_eq, order, compareLex, compareLex]
    simp [compareOn, candidate, hsame]

/-! ## One tier -/

/-- The macros of this name in one tier. -/
def namedIn (r : MacroResolver) (name : String) (t : Locality) : List MacroDef :=
  r.macros.filter fun d => d.name == name && r.locality d.packageName == t

/-- The candidates of one tier, best first. -/
def inTier (r : MacroResolver) (name : String) (t : Locality) : List MacroCandidate :=
  (r.candidates name).filter (·.locality == t)

theorem inTier_eq : r.inTier name t = ((r.namedIn name t).map r.candidate).mergeSort r.before := by
  unfold inTier candidates namedIn
  rw [filter_mergeSort before_trans before_total, List.filter_map, List.filter_filter]
  simp only [Function.comp_def, Bool.and_comm]
  rfl

/-- What is found among the candidates of the three tiers: the first of the highest tier that has any, unless
there are several imported ones and the policy is strict. -/
def ofTiers (strict : Bool) (name : String) :
    List MacroCandidate → List MacroCandidate → List MacroCandidate → Except Ambiguity (Option NodeId)
  | c :: _, _, _ => .ok (some c.uniqueId)
  | [], [c], _ => .ok (some c.uniqueId)
  | [], c :: d :: rest, _ =>
    if strict then .error ⟨.macroDef, name, (c :: d :: rest).map (·.uniqueId)⟩ else .ok (some c.uniqueId)
  | [], [], core => .ok (core.head?.map (·.uniqueId))

theorem mem_of_filter_eq_cons (h : cs.filter (·.locality == t) = c :: rest) : c ∈ cs ∧ c.locality = t := by
  have hmem : c ∈ cs.filter (·.locality == t) := h ▸ List.mem_cons_self
  rwa [List.mem_filter, beq_iff_eq] at hmem

/-- The first of candidates in order belongs to the highest tier that has any. -/
theorem head?_eq (hsorted : cs.Pairwise fun a b => a.locality.depth ≤ b.locality.depth)
    (habove : ∀ c ∈ cs, t.depth ≤ c.locality.depth) (h : cs.filter (·.locality == t) = c :: rest) :
    cs.head? = some c := by
  obtain ⟨hmem, rfl⟩ := mem_of_filter_eq_cons h
  cases cs with
  | nil => cases h
  | cons first cs =>
    have hle : first.locality.depth ≤ c.locality.depth := by
      rcases List.mem_cons.1 hmem with rfl | hmem
      · exact le_rfl
      · exact (List.pairwise_cons.1 hsorted).1 c hmem
    have hfirst : first.locality = c.locality :=
      depth_injective (le_antisymm hle (habove first List.mem_cons_self))
    rw [List.filter_cons, if_pos (beq_iff_eq.2 hfirst)] at h
    rw [List.head?_cons, (List.cons.inj h).1]

theorem choose_eq (h : cs.head? = some c) :
    r.choose name cs =
      if c.locality = .imported ∧ 1 < (importedIds cs).length ∧ r.policy.strictMacroAmbiguity then
        .error ⟨.macroDef, name, importedIds cs⟩
      else .ok (some c.uniqueId) := by
  cases cs with
  | nil => cases h
  | cons first cs =>
    obtain rfl := Option.some.inj h
    rfl

/-- The highest tier that has any candidate decides. -/
theorem choose_eq_ofTiers (hsorted : cs.Pairwise fun a b => a.locality.depth ≤ b.locality.depth) :
    r.choose name cs = ofTiers r.policy.strictMacroAmbiguity name (cs.filter (·.locality == .root))
      (cs.filter (·.locality == .imported)) (cs.filter (·.locality == .core)) := by
  cases hroot : cs.filter (·.locality == .root) with
  | cons c rest =>
    obtain ⟨-, hc⟩ := mem_of_filter_eq_cons hroot
    rw [choose_eq (head?_eq hsorted (fun _ _ => Nat.zero_le _) hroot), if_neg (by simp [hc])]
    rfl
  | nil =>
    rw [List.filter_eq_nil_iff] at hroot
    cases himported : cs.filter (·.locality == .imported) with
    | cons c rest =>
      obtain ⟨-, hc⟩ := mem_of_filter_eq_cons himported
      have habove : ∀ c ∈ cs, Locality.imported.depth ≤ c.locality.depth := by
        intro c hc
        have hne := hroot c hc
        cases hlocality : c.locality <;> simp_all [Locality.depth]
      rw [choose_eq (head?_eq hsorted habove himported), importedIds, himported]
      cases rest with
      | nil => simp [ofTiers]
      | cons d rest => simp [ofTiers, hc]
    | nil =>
      rw [List.filter_eq_nil_iff] at himported
      have hcore : ∀ c ∈ cs, c.locality = .core := by
        intro c hc
        have hroot := hroot c hc
        have himported := himported c hc
        cases hlocality : c.locality <;> simp_all
      rw [List.filter_eq_self.2 fun c hc => beq_iff_eq.2 (hcore c hc)]
      cases cs with
      | nil => rfl
      | cons c cs =>
        rw [choose_eq List.head?_cons, if_neg (by simp [hcore c List.mem_cons_self])]
        rfl

theorem pairwise_depth_candidates :
    (r.candidates name).Pairwise fun a b => a.locality.depth ≤ b.locality.depth := by
  refine pairwise_candidates.imp ?_
  rintro a b (h | ⟨h, -⟩)
  · exact h.le
  · exact h ▸ le_rfl

theorem find_eq_ofTiers :
    r.find name none = ofTiers r.policy.strictMacroAmbiguity name (r.inTier name .root) (r.inTier name .imported)
      (r.inTier name .core) :=
  choose_eq_ofTiers pairwise_depth_candidates

theorem ofTiers_root {strict : Bool} {name : String} {root : List MacroCandidate} (h : root ≠ [])
    (imported core imported' core' : List MacroCandidate) :
    ofTiers strict name root imported core = ofTiers strict name root imported' core' := by
  cases root with
  | nil => exact absurd rfl h
  | cons c rest => rfl

theorem ofTiers_imported {strict : Bool} {name : String} {imported : List MacroCandidate} (h : imported ≠ [])
    (root core core' : List MacroCandidate) :
    ofTiers strict name root imported core = ofTiers strict name root imported core' := by
  cases root with
  | cons c rest => rfl
  | nil =>
    match imported with
    | [] => exact absurd rfl h
    | [c] => rfl
    | c :: d :: rest => rfl

theorem exists_ofTiers_lenient (name : String) (root imported core : List MacroCandidate) :
    ∃ id?, ofTiers false name root imported core = .ok id? := by
  cases root with
  | cons c rest => exact ⟨_, rfl⟩
  | nil =>
    match imported with
    | [] => exact ⟨_, rfl⟩
    | [c] => exact ⟨_, rfl⟩
    | c :: d :: rest => exact ⟨_, rfl⟩

theorem ofTiers_lenient_of_strict {name : String} {root imported core : List MacroCandidate} {id? : Option NodeId}
    (h : ofTiers true name root imported core = .ok id?) : ofTiers false name root imported core = .ok id? := by
  cases root with
  | cons c rest => exact h
  | nil =>
    match imported, h with
    | [], h => exact h
    | [c], h => exact h

theorem inTier_eq_nil_iff : r.inTier name t = [] ↔ r.namedIn name t = [] := by
  rw [inTier_eq, ← List.length_eq_zero_iff, List.length_mergeSort, List.length_map, List.length_eq_zero_iff]

/-- Resolvers for one project and adapter that have the same macros of a tier find the same there. -/
theorem inTier_congr (hroot : r'.rootProject = r.rootProject) (hinternal : r'.internalPackages = r.internalPackages)
    (hsame : r'.namedIn name t = r.namedIn name t) : r'.inTier name t = r.inTier name t := by
  have hcandidate : r'.candidate = r.candidate := by
    unfold candidate locality
    rw [hroot, hinternal]
  have hbefore : r'.before = r.before := by
    unfold before internalRank
    rw [hinternal]
  rw [inTier_eq, inTier_eq, hsame, hcandidate, hbefore]

/-- Two lookups come to the same if they agree on the macros of a tier that has any and of all tiers above it. -/
theorem find_congr (hroot : r'.rootProject = r.rootProject) (hinternal : r'.internalPackages = r.internalPackages)
    (hpolicy : r'.policy = r.policy) (hsome : r.namedIn name t ≠ [])
    (hsame : ∀ s : Locality, s.depth ≤ t.depth → r'.namedIn name s = r.namedIn name s) :
    r'.find name none = r.find name none := by
  have htier : ∀ s : Locality, s.depth ≤ t.depth → r'.inTier name s = r.inTier name s := fun s hs =>
    inTier_congr hroot hinternal (hsame s hs)
  have hne : r.inTier name t ≠ [] := inTier_eq_nil_iff.not.2 hsome
  rw [find_eq_ofTiers, find_eq_ofTiers, hpolicy, htier .root (Nat.zero_le _)]
  cases t with
  | root => exact ofTiers_root hne ..
  | imported =>
    rw [htier .imported le_rfl]
    exact ofTiers_imported hne ..
  | core => rw [htier .imported (by decide), htier .core le_rfl]

end MacroResolver

namespace Manifest

open MacroResolver

/-- **The highest tier decides.** The candidates of a name are its macros, each once and in order. A lookup without
a package takes the first of the highest tier that has any; only several imported ones are refused, all of them,
under the strict policy. So manifests that differ in lower tiers come to the same, the lenient policy refuses
nothing, and both policies agree wherever the strict one succeeds. -/
theorem findMacro_by_tier (m : Manifest) (rootProject adapterType : String) (registry : Registry)
    (policy : ResolutionPolicy) (name : String) :
    let resolver := fun (m : Manifest) (policy : ResolutionPolicy) =>
      MacroResolver.ofManifest m rootProject adapterType registry policy
    let r := resolver m policy
    Listing r name (r.candidates name) ∧
      r.find name none = ofTiers policy.strictMacroAmbiguity name (r.inTier name .root) (r.inTier name .imported)
        (r.inTier name .core) ∧
      (∀ (m' : Manifest) (t : Locality),
        (∃ (id : NodeId) (d : MacroDef), m.macros[id]? = some d ∧ d.name = name ∧ r.locality d.packageName = t) →
        (∀ (id : NodeId) (d : MacroDef), d.name = name → (r.locality d.packageName).depth ≤ t.depth →
          (m'.macros[id]? = some d ↔ m.macros[id]? = some d)) →
        (resolver m' policy).find name none = r.find name none) ∧
      (∀ allow, ∃ id?, (resolver m ⟨allow, false⟩).find name none = .ok id?) ∧
      ∀ allow allow' id?, (resolver m ⟨allow, true⟩).find name none = .ok id? →
        (resolver m ⟨allow', false⟩).find name none = .ok id? := by
  intro resolver r
  refine ⟨listing_candidates, find_eq_ofTiers, fun m' t hsome hsame => ?_, fun allow => ?_, fun allow allow' id? h => ?_⟩
  · obtain ⟨id, d, hd, hname, htier⟩ := hsome
    have hmem : d ∈ r.namedIn name t :=
      List.mem_filter.2 ⟨mem_values_iff.2 ⟨id, hd⟩, by simp [hname, htier]⟩
    refine find_congr rfl rfl rfl (List.ne_nil_of_mem hmem) fun s hs => filter_values_congr fun id d hd => ?_
    rw [Bool.and_eq_true, beq_iff_eq, beq_iff_eq] at hd
    exact hsame id d hd.1 (hd.2 ▸ hs)
  · rw [find_eq_ofTiers]
    exact exists_ofTiers_lenient ..
  · rw [find_eq_ofTiers] at h ⊢
    exact ofTiers_lenient_of_strict h

/-- Two imported packages define `m`. An internal macro of the name does not settle which is meant. -/
theorem findMacro_by_tier_internal :
    let m : Manifest := (({} : Manifest).addMacro (.ofName "p" "m")).addMacro (.ofName "q" "m")
    let find := fun m : Manifest => (MacroResolver.ofManifest m "root" "postgres" Registry.builtin {}).find "m" none
    find (m.addMacro (.ofName "dbt" "m")) = find m ∧
      find m = .error ⟨.macroDef, "m", ["macro.p.m", "macro.q.m"]⟩ := by
  intro m find
  have hcandidates : (MacroResolver.ofManifest m "root" "postgres" Registry.builtin {}).candidates "m" =
      [⟨"macro.p.m", "p", .imported⟩, ⟨"macro.q.m", "q", .imported⟩] := by
    unfold MacroResolver.candidates
    rw [List.mergeSort_of_pairwise (by decide +kernel)]
    decide +kernel
  obtain ⟨-, hfind, hcongr, -⟩ := findMacro_by_tier m "root" "postgres" Registry.builtin {} "m"
  refine ⟨hcongr _ .imported ⟨"macro.p.m", .ofName "p" "m", by decide +kernel, rfl, by decide +kernel⟩ ?_, ?_⟩
  · intro id d hname hdepth
    change (m.macros.insert "macro.dbt.m" (.ofName "dbt" "m"))[id]? = some d ↔ _
    rw [Std.ExtTreeMap.getElem?_insert]
    split
    · rename_i hid
      obtain rfl := compare_eq_iff_eq.1 hid
      have hnone : m.macros["macro.dbt.m"]? = none := by decide +kernel
      rw [hnone]
      refine iff_of_false (fun h => ?_) nofun
      cases h
      exact absurd hdepth (by decide +kernel)
    · rfl
  · change (MacroResolver.ofManifest m "root" "postgres" Registry.builtin {}).find "m" none = _
    rw [hfind]
    simp only [inTier, hcandidates]
    rfl

end Manifest

end Lineage
