import Lineage.Proofs.Resolve.Name

/-!
# The highest version

Without a version, the last node that none before it and none behind it beats stands for its package. Versions
are compared two at a time, as numbers or by code point, and that is no order: `1.50` and `1.5` are equal
numbers, with `1.5-rc1` between them. So a version can be passed over for one that is equal to it, which then
loses to a lower one (`Manifest.resolveRef_passes_over_highest`). The highest version is found exactly if one
such is higher than all that stand behind it (`highest_foldl_iff`), which is so where all versions are numbers
or none is (`highest_foldl`).
-/

namespace Lineage

/-! ## The order of versions -/

namespace Double

/-- Where a defined double stands: below the finite ones, among them or above them. -/
def place : Double → Int × Int
  | .finite x => (0, x.signedUnits)
  | .infinite negative => (if negative then -1 else 1, 0)
  | .undefined => (0, 0)

/-- The order of places. -/
def placeOrder : Int × Int → Int × Int → Ordering := compareLex (compareOn (·.1)) (compareOn (·.2))

instance : Std.TransCmp placeOrder := by unfold placeOrder; infer_instance

theorem placeOrder_swap (p q : Int × Int) : placeOrder q p = (placeOrder p q).swap := Std.OrientedCmp.eq_swap

theorem compare?_eq {x y : Double} (hx : x ≠ .undefined) (hy : y ≠ .undefined) :
    compare? x y = some (placeOrder x.place y.place) := by
  cases x with
  | undefined => exact absurd rfl hx
  | finite x =>
    cases y with
    | undefined => exact absurd rfl hy
    | finite y => simp [compare?, placeOrder, place, compareLex, compareOn]
    | infinite n => cases n <;> simp [compare?, placeOrder, place, compareLex, compareOn] <;> rfl
  | infinite n =>
    cases y with
    | undefined => exact absurd rfl hy
    | finite y => cases n <;> simp [compare?, placeOrder, place, compareLex, compareOn] <;> rfl
    | infinite k => cases n <;> cases k <;> rfl

theorem compare?_undefined {x y : Double} (h : x = .undefined ∨ y = .undefined) : compare? x y = none := by
  rcases h with rfl | rfl
  · rfl
  · cases x <;> rfl

theorem compare?_swap (x y : Double) : compare? y x = (compare? x y).map Ordering.swap := by
  by_cases h : x = .undefined ∨ y = .undefined
  · rw [compare?_undefined h, compare?_undefined h.symm]
    rfl
  · obtain ⟨hx, hy⟩ := not_or.1 h
    rw [compare?_eq hx hy, compare?_eq hy hx, Option.map_some, placeOrder_swap]

end Double

namespace Version

/-- Whether a text reads as a double other than the undefined one. -/
def IsNumber (s : String) : Prop := ∃ x, Double.parse? s = some x ∧ x ≠ .undefined

instance (s : String) : Decidable (IsNumber s) :=
  inferInstanceAs (Decidable (∃ x, Double.parse? s = some x ∧ x ≠ .undefined))

theorem order_swap (a b : String) : order b a = (order a b).swap := by
  unfold order
  cases ha : Double.parse? a with
  | none => cases Double.parse? b <;> exact Std.OrientedOrd.eq_swap
  | some x =>
    cases hb : Double.parse? b with
    | none => exact Std.OrientedOrd.eq_swap
    | some y =>
      dsimp only
      rw [Double.compare?_swap x y]
      cases Double.compare? x y <;> rfl

theorem order_self (a : String) : order a a = .eq := by
  have h := order_swap a a
  cases ho : order a a with
  | eq => rfl
  | lt => rw [ho] at h; cases h
  | gt => rw [ho] at h; cases h

/-- Among numbers, and among texts that are none, versions are ordered. -/
theorem order_trans {a b c : String} (hab : order a b ≠ .lt) (hbc : order b c ≠ .lt)
    (h : (IsNumber a ∧ IsNumber b ∧ IsNumber c) ∨
      (Double.parse? a = none ∧ Double.parse? b = none ∧ Double.parse? c = none)) :
    order a c ≠ .lt := by
  have hab := Ordering.ne_lt_iff_isGE.1 hab
  have hbc := Ordering.ne_lt_iff_isGE.1 hbc
  refine Ordering.ne_lt_iff_isGE.2 ?_
  rcases h with ⟨⟨x, hx, hxd⟩, ⟨y, hy, hyd⟩, ⟨z, hz, hzd⟩⟩ | ⟨ha, hb, hc⟩
  · simp only [order, hx, hy, hz, Double.compare?_eq hxd hyd, Double.compare?_eq hyd hzd,
      Double.compare?_eq hxd hzd, Option.getD_some] at hab hbc ⊢
    exact Std.TransCmp.isGE_trans hab hbc
  · simp only [order, ha, hb, hc] at hab hbc ⊢
    exact Std.TransCmp.isGE_trans hab hbc

end Version

/-! ## The version that is kept -/

/-- How two nodes compare by version. -/
def Node.versionOrder (a b : Node) : Ordering := Version.order (a.versionText.getD "") (b.versionText.getD "")

/-- Whether none of these nodes has a higher version. -/
def Highest (nodes : List Node) (n : Node) : Prop := ∀ k ∈ nodes, n.versionOrder k ≠ .lt

instance (nodes : List Node) (n : Node) : Decidable (Highest nodes n) :=
  inferInstanceAs (Decidable (∀ k ∈ nodes, n.versionOrder k ≠ .lt))

/-- Whether all versions are numbers or none is. -/
def OneKind (nodes : List Node) : Prop :=
  (∀ n ∈ nodes, Version.IsNumber (n.versionText.getD "")) ∨
    ∀ n ∈ nodes, Double.parse? (n.versionText.getD "") = none

instance (nodes : List Node) : Decidable (OneKind nodes) := inferInstanceAs (Decidable (_ ∨ _))

variable {nodes before after rest : List Node} {first top n : Node}

theorem OneKind.trans {a b c : Node} (h : OneKind nodes) (ha : a ∈ nodes) (hb : b ∈ nodes) (hc : c ∈ nodes)
    (hab : a.versionOrder b ≠ .lt) (hbc : b.versionOrder c ≠ .lt) : a.versionOrder c ≠ .lt :=
  Version.order_trans hab hbc
    (h.imp (fun h => ⟨h a ha, h b hb, h c hc⟩) fun h => ⟨h a ha, h b hb, h c hc⟩)

theorem OneKind.mono {nodes' : List Node} (h : OneKind nodes) (hsubset : nodes' ⊆ nodes) : OneKind nodes' :=
  h.imp (fun h n hn => h n (hsubset hn)) fun h n hn => h n (hsubset hn)

theorem versionOrder_self (n : Node) : n.versionOrder n = .eq := Version.order_self _

theorem versionOrder_swap (a b : Node) : b.versionOrder a = (a.versionOrder b).swap := Version.order_swap _ _

theorem laterVersion_eq (a b : Node) : laterVersion a b = if a.versionOrder b = .gt then a else b := by
  unfold laterVersion Node.versionOrder
  cases Version.order (a.versionText.getD "") (b.versionText.getD "") <;> rfl

theorem laterVersion_of_gt (h : first.versionOrder n = .gt) : laterVersion first n = first := by
  rw [laterVersion_eq, if_pos h]

theorem laterVersion_of_ne_gt (h : first.versionOrder n ≠ .gt) : laterVersion first n = n := by
  rw [laterVersion_eq, if_neg h]

/-- The later of two nodes is as high as both. -/
theorem laterVersion_ne_lt {a b k : Node} (hk : k ∈ [a, b]) : (laterVersion a b).versionOrder k ≠ .lt := by
  by_cases hgt : a.versionOrder b = .gt
  · rw [laterVersion_of_gt hgt]
    rcases List.mem_pair.1 hk with rfl | rfl
    · simp [versionOrder_self]
    · simp [hgt]
  · rw [laterVersion_of_ne_gt hgt]
    rcases List.mem_pair.1 hk with rfl | rfl
    · rwa [versionOrder_swap, ne_eq, Ordering.swap_eq_lt]
    · simp [versionOrder_self]

/-- What is kept is higher than all that stand behind it. -/
theorem exists_split_foldl (first : Node) (rest : List Node) :
    ∃ before after, first :: rest = before ++ rest.foldl laterVersion first :: after ∧
      ∀ k ∈ after, (rest.foldl laterVersion first).versionOrder k = .gt := by
  induction rest generalizing first with
  | nil => exact ⟨[], [], rfl, fun _ hk => absurd hk List.not_mem_nil⟩
  | cons next rest ih =>
    rw [List.foldl_cons]
    by_cases hgt : first.versionOrder next = .gt
    · rw [laterVersion_of_gt hgt]
      obtain ⟨before, after, hsplit, hafter⟩ := ih first
      match before with
      | [] =>
        rw [List.nil_append, List.cons.injEq] at hsplit
        refine ⟨[], next :: rest, by rw [← hsplit.1, List.nil_append], fun k hk => ?_⟩
        rw [← hsplit.1]
        rcases List.mem_cons.1 hk with rfl | hk
        · exact hgt
        · exact hsplit.1 ▸ hafter k (hsplit.2 ▸ hk)
      | b :: before =>
        rw [List.cons_append, List.cons.injEq] at hsplit
        refine ⟨first :: next :: before, after, ?_, hafter⟩
        rw [List.cons_append, List.cons_append, ← hsplit.2]
    · rw [laterVersion_of_ne_gt hgt]
      obtain ⟨before, after, hsplit, hafter⟩ := ih next
      exact ⟨first :: before, after, by rw [List.cons_append, ← hsplit], hafter⟩

theorem mem_foldl_laterVersion (first : Node) (rest : List Node) :
    rest.foldl laterVersion first ∈ first :: rest := by
  obtain ⟨before, after, hsplit, -⟩ := exists_split_foldl first rest
  rw [hsplit]
  exact List.mem_append_right _ List.mem_cons_self

theorem foldl_laterVersion_of_gt (h : ∀ k ∈ after, top.versionOrder k = .gt) :
    after.foldl laterVersion top = top := by
  induction after with
  | nil => rfl
  | cons k after ih =>
    rw [List.foldl_cons, laterVersion_of_gt (h k List.mem_cons_self)]
    exact ih fun j hj => h j (List.mem_cons_of_mem _ hj)

/-- A highest version that is higher than all behind it is kept. -/
theorem foldl_laterVersion_eq (hsplit : first :: rest = before ++ top :: after)
    (htop : Highest (first :: rest) top) (hafter : ∀ k ∈ after, top.versionOrder k = .gt) :
    rest.foldl laterVersion first = top := by
  match before with
  | [] =>
    rw [List.nil_append, List.cons.injEq] at hsplit
    rw [hsplit.1, hsplit.2]
    exact foldl_laterVersion_of_gt hafter
  | b :: before =>
    rw [List.cons_append, List.cons.injEq] at hsplit
    obtain ⟨rfl, rfl⟩ := hsplit
    have hmem : before.foldl laterVersion first ∈ first :: (before ++ top :: after) :=
      List.mem_append_left (top :: after) (mem_foldl_laterVersion first before)
    have hstep : laterVersion (before.foldl laterVersion first) top = top := by
      apply laterVersion_of_ne_gt
      rw [versionOrder_swap top, ne_eq, Ordering.swap_eq_gt]
      exact htop _ hmem
    rw [List.foldl_append, List.foldl_cons, hstep]
    exact foldl_laterVersion_of_gt hafter

/-- The highest version is kept exactly if a highest one is higher than all behind it. -/
theorem highest_foldl_iff :
    Highest (first :: rest) (rest.foldl laterVersion first) ↔
      ∃ before top after, first :: rest = before ++ top :: after ∧ Highest (first :: rest) top ∧
        ∀ k ∈ after, top.versionOrder k = .gt := by
  constructor
  · intro h
    obtain ⟨before, after, hsplit, hafter⟩ := exists_split_foldl first rest
    exact ⟨before, _, after, hsplit, h, hafter⟩
  · rintro ⟨before, top, after, hsplit, htop, hafter⟩
    rwa [foldl_laterVersion_eq hsplit htop hafter]

/-- Where versions are ordered, the highest one is kept. -/
theorem highest_foldl (h : OneKind (first :: rest)) :
    Highest (first :: rest) (rest.foldl laterVersion first) := by
  induction rest generalizing first with
  | nil =>
    intro k hk
    obtain rfl := List.mem_singleton.1 hk
    simp [versionOrder_self]
  | cons next rest ih =>
    have hlater : laterVersion first next ∈ first :: next :: rest := by
      rw [laterVersion_eq]
      split <;> simp
    have hsubset : laterVersion first next :: rest ⊆ first :: next :: rest :=
      List.cons_subset.2 ⟨hlater, fun k hk => by simp [hk]⟩
    have hhigh := ih (h.mono hsubset)
    have hmem := hsubset (mem_foldl_laterVersion (laterVersion first next) rest)
    -- What is kept at last is as high as the later of the first two, which is as high as both of them.
    intro k hk
    by_cases hpair : k ∈ [first, next]
    · exact h.trans hmem hlater hk (hhigh _ List.mem_cons_self) (laterVersion_ne_lt hpair)
    · exact hhigh k (by simp_all)

/-! ## References without a version -/

namespace Manifest

variable {m : Manifest} {name p : String}

/-- The nodes of a package that a reference with this name can mean. -/
def versionsIn (m : Manifest) (package name : String) : List Node :=
  (m.answering name none).filter (·.packageName == package)

theorem resolveRef_eq_found {scope : Scope} (hversions : AreVersions (m.versionsIn p name))
    (hnodes : m.versionsIn p name = first :: rest) (hlatest : ∀ n ∈ first :: rest, isLatest n = false) :
    m.resolveRef scope name (some p) none = .found (rest.foldl laterVersion first).uniqueId := by
  have hnone : (first :: rest).find? isLatest = none := by
    rw [List.find?_eq_none]
    intro n hn
    simp [hlatest n hn]
  have hcond : (decide (1 < (m.versionsIn p name).length) &&
      (m.versionsIn p name).all (·.version.isSome)) = true := by
    rw [Bool.and_eq_true, decide_eq_true_iff, List.all_eq_true]
    exact hversions
  have hkept : collapsePackage (m.versionsIn p name) = [rest.foldl laterVersion first] := by
    rw [collapsePackage, if_pos hcond, hnodes, preferredVersion, hnone]
    rfl
  rw [resolveRef_eq, ladder, contenders]
  simp only [Option.isSome_none, Bool.false_eq_true, if_false]
  rw [filter_representatives]
  change pick ((collapsePackage (m.versionsIn p name)).map Node.candidate) = _
  rw [hkept]
  rfl

/-- **The highest version, where there is one.** Of several versions in a package, none of them the latest by
its own word, one is found whoever asks. It is a highest one exactly if some highest version is higher than all
that stand behind it, and so wherever all versions are numbers or none is. -/
theorem resolveRef_highest_iff (m : Manifest) (p name : String)
    (hversions : AreVersions (m.versionsIn p name)) (hlatest : ∀ n ∈ m.versionsIn p name, isLatest n = false) :
    ∃ n ∈ m.versionsIn p name,
      (∀ scope, m.resolveRef scope name (some p) none = .found n.uniqueId) ∧
      (Highest (m.versionsIn p name) n ↔
        ∃ before top after, m.versionsIn p name = before ++ top :: after ∧ Highest (m.versionsIn p name) top ∧
          ∀ k ∈ after, top.versionOrder k = .gt) ∧
      (OneKind (m.versionsIn p name) → Highest (m.versionsIn p name) n) := by
  cases hnodes : m.versionsIn p name with
  | nil =>
    rw [hnodes] at hversions
    exact absurd hversions.1 (by simp)
  | cons first rest =>
    rw [hnodes] at hlatest
    refine ⟨rest.foldl laterVersion first, mem_foldl_laterVersion first rest, fun scope => ?_,
      highest_foldl_iff, highest_foldl⟩
    exact resolveRef_eq_found hversions hnodes hlatest

theorem resolveRef_highest_iff_numbers :
    let m := ofVersions [("a", "9.5"), ("b", "10"), ("c", "2")]
    AreVersions (m.versionsIn "p" "dim") ∧ (∀ n ∈ m.versionsIn "p" "dim", isLatest n = false) ∧
      OneKind (m.versionsIn "p" "dim") ∧
      ∃ n ∈ m.versionsIn "p" "dim", (∀ scope, m.resolveRef scope "dim" (some "p") none = .found n.uniqueId) ∧
        Highest (m.versionsIn "p" "dim") n := by
  intro m
  have hversions : AreVersions (m.versionsIn "p" "dim") := ⟨by decide +kernel, by decide +kernel⟩
  have hlatest : ∀ n ∈ m.versionsIn "p" "dim", isLatest n = false := by decide +kernel
  have hkind : OneKind (m.versionsIn "p" "dim") := by decide +kernel
  obtain ⟨n, hn, hfound, -, hhighest⟩ := resolveRef_highest_iff m "p" "dim" hversions hlatest
  exact ⟨hversions, hlatest, hkind, n, hn, hfound, hhighest hkind⟩

/-- `1.50` is no lower than `1.5` and higher than `1.5-rc1`, and yet `1.5-rc1` is found: `1.5` is an equal number
and stands in between, so it is taken instead of `1.50`, and it comes before `1.5-rc1` by code point. -/
theorem resolveRef_passes_over_highest :
    let m := ofVersions [("a", "1.50"), ("b", "1.5"), ("c", "1.5-rc1")]
    AreVersions (m.versionsIn "p" "dim") ∧ (∀ n ∈ m.versionsIn "p" "dim", isLatest n = false) ∧
      (∀ scope, m.resolveRef scope "dim" (some "p") none = .found "c") ∧
      (∃ n ∈ m.versionsIn "p" "dim", n.uniqueId = "a" ∧ Highest (m.versionsIn "p" "dim") n) ∧
      ∀ n ∈ m.versionsIn "p" "dim", n.uniqueId = "c" → ¬ Highest (m.versionsIn "p" "dim") n := by
  intro m
  have hversions : AreVersions (m.versionsIn "p" "dim") := ⟨by decide +kernel, by decide +kernel⟩
  have hlatest : ∀ n ∈ m.versionsIn "p" "dim", isLatest n = false := by decide +kernel
  refine ⟨hversions, hlatest, fun scope => ?_, by decide +kernel, by decide +kernel⟩
  cases hnodes : m.versionsIn "p" "dim" with
  | nil => exact absurd hnodes (by decide +kernel)
  | cons first rest =>
    rw [resolveRef_eq_found hversions hnodes (hnodes ▸ hlatest)]
    have hkept : ((m.versionsIn "p" "dim").tail.foldl laterVersion
        ((m.versionsIn "p" "dim").head (by decide +kernel))).uniqueId = "c" := by decide +kernel
    simpa [hnodes] using hkept

end Manifest

end Lineage
