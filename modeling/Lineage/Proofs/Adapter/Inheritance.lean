import Lineage.Config
import Lineage.Proofs.Manifest.Collection

/-!
# Inheritance between adapters

Parents may be unknown or form a cycle, so the climb from a type to its parents is bounded only by the types
it has met. It is left after at most one round more than there are plugins, and what it has met then is the
longest path of parents without repetition (`Registry.ParentPath.prefix_ascend`, `Registry.climbs_ascend`).

The adapters of a configuration are accepted if and only if no parent is missing (`Config.registry_eq_ok_iff`).
Then a registered type inherits from registered types only, and each of them has a package among the internal
ones (`Registry.Closed.internalPackages_eq`). Otherwise a missing parent is named. If there are several, any of them
can be the one, depending on the order in which a run comes to the plugins (`Config.exists_registry_eq_error_iff`).
-/

namespace Lineage

namespace Registry

variable {r : Registry} {lineup : Lineup} {e : UnknownParent} {type : String} {current : Option String}
  {path met met' : List String} {fuel : Nat}

/-! ## Paths of parents -/

/-- Types that are each the parent of the one before, from a type on. None of them is met twice, and none is the
default type. -/
inductive ParentPath (r : Registry) : Option String → List String → Prop
  | stop (current : Option String) : ParentPath r current []
  | up {type : String} {path : List String} : type ≠ defaultAdapterType → type ∉ path →
      ParentPath r (r.parent? type) path → ParentPath r (some type) (type :: path)

namespace ParentPath

theorem nodup (h : r.ParentPath current path) : path.Nodup := by
  induction h with
  | stop => exact .nil
  | up _ hnew _ ih => exact List.nodup_cons.2 ⟨hnew, ih⟩

theorem default_not_mem (h : r.ParentPath current path) : defaultAdapterType ∉ path := by
  induction h with
  | stop => exact List.not_mem_nil
  | up htype _ _ ih => simp [htype.symm, ih]

/-- What has a parent is registered, so only the last type of a path may be unknown. -/
theorem registered_of_mem_dropLast (h : r.ParentPath current path) : ∀ t ∈ path.dropLast, t ∈ r.plugins.keys := by
  induction h with
  | stop => exact nofun
  | @up type path _ _ hpath ih =>
    cases path with
    | nil => exact nofun
    | cons parent path =>
      have hparent : r.parent? type ≠ none := by
        rintro hnone
        rw [hnone] at hpath
        cases hpath
      have htype : type ∈ r.plugins := by
        refine Std.ExtTreeMap.mem_iff_isSome_getElem?.2 (Option.isSome_iff_ne_none.2 fun hnone => hparent ?_)
        rw [parent?, get?, hnone, Option.bind_none]
      rw [List.dropLast_cons_cons]
      exact List.forall_mem_cons.2 ⟨Std.ExtTreeMap.mem_keys.2 htype, ih⟩

theorem length_le (h : r.ParentPath current path) : path.length ≤ r.plugins.size + 1 := by
  have hnodup : path.dropLast.Nodup := h.nodup.sublist (List.dropLast_sublist path)
  have hle := (List.subperm_of_subset hnodup h.registered_of_mem_dropLast).length_le
  rw [List.length_dropLast, Std.ExtTreeMap.length_keys] at hle
  omega

end ParentPath

/-! ## Climbing -/

theorem ascend_succ :
    r.ascend (fuel + 1) met (some type) =
      if type = defaultAdapterType ∨ type ∈ met then []
      else type :: r.ascend fuel (type :: met) (r.parent? type) := by
  simp [ascend]

/-- What is met on a climb is a path of parents, and nothing that was met before. -/
theorem parentPath_ascend (fuel : Nat) (met : List String) (current : Option String) :
    r.ParentPath current (r.ascend fuel met current) ∧ ∀ t ∈ r.ascend fuel met current, t ∉ met := by
  induction fuel generalizing met current with
  | zero => exact ⟨.stop current, nofun⟩
  | succ fuel ih =>
    cases current with
    | none => exact ⟨.stop none, nofun⟩
    | some type =>
      rw [ascend_succ]
      split
      · exact ⟨.stop (some type), nofun⟩
      · rename_i hgoes
        rw [not_or] at hgoes
        obtain ⟨hpath, hfresh⟩ := ih (type :: met) (r.parent? type)
        refine ⟨.up hgoes.1 (fun hmem => hfresh type hmem List.mem_cons_self) hpath, ?_⟩
        rintro t (_ | ⟨_, ht⟩)
        · exact hgoes.2
        · exact fun hmem => hfresh t ht (List.mem_cons_of_mem type hmem)

/-- Every path of parents that avoids what was met before is the start of the climb. -/
theorem ParentPath.prefix_ascend (h : r.ParentPath current path) (hfresh : ∀ t ∈ path, t ∉ met)
    (hfuel : path.length ≤ fuel) : path <+: r.ascend fuel met current := by
  induction h generalizing met fuel with
  | stop => exact List.nil_prefix
  | @up type path htype hnew _ ih =>
    obtain ⟨hmet, hpath⟩ := List.forall_mem_cons.1 hfresh
    cases fuel with
    | zero => cases hfuel
    | succ fuel =>
      rw [ascend_succ, if_neg (not_or.2 ⟨htype, hmet⟩), List.prefix_cons_inj]
      refine ih (fun t ht hmem => ?_) (by simpa using hfuel)
      rcases List.mem_cons.1 hmem with rfl | hmem
      · exact hnew ht
      · exact hpath t ht hmem

/-- With one round for each plugin and one more, a climb is as long as with any number of rounds. -/
theorem ascend_eq (hfuel : r.plugins.size + 1 ≤ fuel) :
    r.ascend fuel [] current = r.ascend (r.plugins.size + 1) [] current := by
  have hpath : r.ParentPath current (r.ascend fuel [] current) := (parentPath_ascend fuel [] current).1
  have hshort : r.ParentPath current (r.ascend (r.plugins.size + 1) [] current) := (parentPath_ascend ..).1
  have hle : r.ascend (r.plugins.size + 1) [] current <+: r.ascend fuel [] current :=
    hshort.prefix_ascend (fun _ _ => List.not_mem_nil) (hshort.length_le.trans hfuel)
  exact (hpath.prefix_ascend (fun _ _ => List.not_mem_nil) hpath.length_le).eq_of_length_le hle.length_le

/-- The loop that follows parents, from the types met so far and the type that comes next (in `type_chain`): it is
left after so many rounds, with these types met. -/
inductive Climbs (r : Registry) : List String → Option String → Nat → List String → Prop
  | top (met : List String) : Climbs r met none 0 met
  | default (met : List String) : Climbs r met (some defaultAdapterType) 0 met
  | closed {met : List String} {type : String} : type ∈ met → Climbs r met (some type) 0 met
  | round {met last : List String} {type : String} {n : Nat} : type ≠ defaultAdapterType → type ∉ met →
      Climbs r (met ++ [type]) (r.parent? type) n last → Climbs r met (some type) (n + 1) last

theorem Climbs.unique {n k : Nat} {last last' : List String} (h : r.Climbs met current n last)
    (h' : r.Climbs met current k last') : n = k ∧ last = last' := by
  induction h generalizing k with
  | top => cases h'; exact ⟨rfl, rfl⟩
  | default =>
    cases h' with
    | default | closed => exact ⟨rfl, rfl⟩
    | round hdefault => exact absurd rfl hdefault
  | closed hmem =>
    cases h' with
    | default | closed => exact ⟨rfl, rfl⟩
    | round _ hnew => exact absurd hmem hnew
  | round hdefault hnew _ ih =>
    cases h' with
    | default => exact absurd rfl hdefault
    | closed hmem => exact absurd hmem hnew
    | round _ _ h' =>
      obtain ⟨rfl, hlast⟩ := ih h'
      exact ⟨rfl, hlast⟩

/-- A climb that is shorter than its bound ends where the loop is left. -/
theorem climbs_ascend (hmet : ∀ t, t ∈ met' ↔ t ∈ met) (hlength : (r.ascend fuel met current).length < fuel) :
    r.Climbs met' current (r.ascend fuel met current).length (met' ++ r.ascend fuel met current) := by
  induction fuel generalizing met met' current with
  | zero => cases hlength
  | succ fuel ih =>
    cases current with
    | none => simpa [ascend] using Climbs.top met'
    | some type =>
      rw [ascend_succ] at hlength ⊢
      by_cases hdefault : type = defaultAdapterType
      · simpa [hdefault] using Climbs.default met'
      by_cases hclosed : type ∈ met
      · simpa [hclosed] using Climbs.closed ((hmet type).2 hclosed)
      rw [if_neg (not_or.2 ⟨hdefault, hclosed⟩)] at hlength ⊢
      have hmet' : ∀ t, t ∈ met' ++ [type] ↔ t ∈ type :: met := by simp [hmet, or_comm]
      have hclimb := ih hmet' (Nat.lt_of_succ_lt_succ hlength)
      rw [List.append_assoc] at hclimb
      exact .round hdefault ((hmet type).not.2 hclosed) hclimb

/-- The types that a type inherits from, and itself, up to the default type. -/
def ancestry (r : Registry) (type : String) : List String := r.ascend (r.plugins.size + 1) [] (some type)

theorem typeChain_eq : r.typeChain type = r.ancestry type ++ [defaultAdapterType] := rfl

theorem parentPath_ancestry : r.ParentPath (some type) (r.ancestry type) := (parentPath_ascend ..).1

theorem ParentPath.prefix_ancestry (h : r.ParentPath (some type) path) : path <+: r.ancestry type :=
  h.prefix_ascend (fun _ _ => List.not_mem_nil) h.length_le

theorem climbs_ancestry : r.Climbs [] (some type) (r.ancestry type).length (r.ancestry type) := by
  -- With one round more than a path of parents has types, the climb is shorter than its bound.
  have hlong : r.ascend (r.plugins.size + 2) [] (some type) = r.ancestry type := ascend_eq (by omega)
  have hpath : r.ParentPath (some type) (r.ancestry type) := parentPath_ancestry
  have hlength : (r.ascend (r.plugins.size + 2) [] (some type)).length < r.plugins.size + 2 := by
    rw [hlong]
    exact Nat.lt_succ_of_le hpath.length_le
  have hclimb : r.Climbs [] (some type) _ ([] ++ _) := climbs_ascend (fun _ => Iff.rfl) hlength
  rwa [hlong] at hclimb

/-! ## Registries without missing parents -/

/-- Every parent is registered, or the default type. -/
def Closed (r : Registry) : Prop :=
  ∀ t p parent, r.get? t = some p → p.parent = some parent →
    parent = defaultAdapterType ∨ (r.get? parent).isSome

/-- Where no parent is missing, all types on a path from a registered type are registered. -/
theorem Closed.registered (h : r.Closed) (hpath : r.ParentPath current path)
    (hcurrent : ∀ t ∈ current, t = defaultAdapterType ∨ (r.get? t).isSome) : ∀ t ∈ path, (r.get? t).isSome := by
  induction hpath with
  | stop => exact nofun
  | @up type path hdefault _ _ ih =>
    have htype := (hcurrent type rfl).resolve_left hdefault
    refine List.forall_mem_cons.2 ⟨htype, ih fun parent hparent => ?_⟩
    obtain ⟨p, hp⟩ := Option.isSome_iff_exists.1 htype
    refine h type p parent hp ?_
    rwa [Option.mem_def, parent?, hp] at hparent

/-- The internal packages are those of the types that a registered type inherits from, in their order, then that of
the default type, then the fallback. -/
theorem Closed.internalPackages_eq (h : r.Closed) (htype : (r.get? type).isSome) :
    ∃ plugins : List Plugin, (r.ancestry type).map r.get? = plugins.map some ∧
      r.internalPackages type =
        plugins.map (·.packageName) ++ ((r.get? defaultAdapterType).map (·.packageName)).toList ++
          [fallbackPackage] := by
  have hregistered : ∀ t ∈ r.ancestry type, (r.get? t).isSome := by
    refine h.registered parentPath_ancestry ?_
    rintro t ⟨⟩
    exact .inr htype
  have hplugins : (r.ancestry type).map r.get? =
      ((r.ancestry type).pmap (fun t ht => (r.get? t).get ht) hregistered).map some := by
    rw [List.map_pmap, ← List.pmap_eq_map (p := fun t => (r.get? t).isSome) hregistered]
    exact List.pmap_congr_left _ fun t _ ht _ => (Option.some_get ht).symm
  generalize (r.ancestry type).pmap _ hregistered = plugins at hplugins
  refine ⟨plugins, hplugins, ?_⟩
  have hpackages : (r.ancestry type).filterMap (fun t => (r.get? t).map (·.packageName)) =
      plugins.map (·.packageName) := by
    have hmap := congrArg (List.filterMap fun plugin? : Option Plugin => plugin?.map (·.packageName)) hplugins
    rw [List.filterMap_map, List.filterMap_map] at hmap
    exact hmap.trans (congrFun List.filterMap_eq_map plugins)
  rw [internalPackages, typeChain_eq, List.filterMap_append, hpackages]
  cases hdefault : r.get? defaultAdapterType <;> simp [hdefault]

/-! ## Registering -/

/-- Each plugin stands under its own type. -/
def Typed (r : Registry) : Prop := Keyed Plugin.adapterType (fun _ => True) r.plugins

theorem Typed.register (h : r.Typed) (p : Plugin) : (r.register p).Typed := h.insert trivial

theorem Typed.registerAll (h : r.Typed) (plugins : List Plugin) : (r.registerAll plugins).Typed := by
  induction plugins generalizing r with
  | nil => exact h
  | cons p plugins ih => exact ih (h.register p)

theorem typed_builtin : builtin.Typed := Typed.registerAll .empty _

/-- Where each type is given once, the order in which plugins are registered does not matter. -/
theorem get?_registerAll {plugins : List Plugin} (h : plugins.Pairwise fun p q => p.adapterType ≠ q.adapterType) :
    (r.registerAll plugins).get? type = (plugins.find? (·.adapterType == type)).or (r.get? type) := by
  induction plugins generalizing r with
  | nil => rfl
  | cons p plugins ih =>
    obtain ⟨hfirst, hrest⟩ := List.pairwise_cons.1 h
    change ((r.register p).registerAll plugins).get? type = _
    rw [ih hrest, List.find?_cons]
    have hregister : (r.register p).get? type = if p.adapterType = type then some p else r.get? type := by
      simp [register, get?, Std.ExtTreeMap.getElem?_insert]
    by_cases htype : p.adapterType = type
    · have hnone : plugins.find? (·.adapterType == type) = none :=
        List.find?_eq_none.2 fun q hq => by simpa [← htype] using (hfirst q hq).symm
      simp [hregister, hnone, htype]
    · simp [hregister, htype, beq_false_of_ne htype]

/-! ## Missing parents -/

theorem contains_iff : r.plugins.contains type = true ↔ (r.get? type).isSome := by
  rw [Std.ExtTreeMap.contains_eq_isSome_getElem?]
  rfl

/-- The type is registered with this parent, which is missing. -/
def Lacks (r : Registry) (e : UnknownParent) : Prop :=
  r.parent? e.adapter = some e.parent ∧ e.parent ≠ defaultAdapterType ∧ r.get? e.parent = none

theorem Typed.lacks_of_unknownParent? (h : r.Typed) (he : r.unknownParent? lineup = some e) : r.Lacks e := by
  obtain ⟨p, hp, hreport⟩ := List.exists_of_findSome?_eq_some he
  obtain ⟨t, ht⟩ := mem_values_iff.1 ((lineup.perm r).mem_iff.1 hp)
  obtain ⟨rfl, -⟩ := h t p ht
  cases hparent : p.parent with
  | none => simp [hparent] at hreport
  | some parent =>
    simp only [hparent, contains_iff] at hreport
    split at hreport
    · cases hreport
    · rename_i hmissing
      cases hreport
      rw [not_or, Option.not_isSome_iff_eq_none] at hmissing
      refine ⟨?_, hmissing⟩
      rw [parent?, get?, ht]
      exact hparent

theorem unknownParent?_eq_none_iff : r.unknownParent? lineup = none ↔ r.Closed := by
  unfold unknownParent?
  simp only [List.findSome?_eq_none_iff, contains_iff, (lineup.perm r).mem_iff]
  constructor
  · intro h t p parent hp hparent
    have hnone := h p (mem_values_iff.2 ⟨t, hp⟩)
    rw [hparent] at hnone
    by_contra hmissing
    simp [hmissing] at hnone
  · intro h p hp
    obtain ⟨t, ht⟩ := mem_values_iff.1 hp
    cases hparent : p.parent with
    | none => rfl
    | some parent => exact if_pos (h t p parent ht hparent)

end Registry

/-- By type, behind a plugin that comes first. -/
def Lineup.ledBy (first : Plugin) : Lineup where
  order r :=
    if first ∈ r.plugins.values then first :: r.plugins.values.erase first else r.plugins.values
  perm r := by
    split
    · rename_i hmem
      exact (List.perm_cons_erase hmem).symm
    · exact .refl _

/-- Every missing parent is met first in some lineup. -/
theorem Registry.Typed.exists_unknownParent?_ledBy {r : Registry} {e : UnknownParent} (h : r.Typed)
    (he : r.Lacks e) : ∃ p, r.unknownParent? (.ledBy p) = some e := by
  obtain ⟨hparent, hdefault, hmissing⟩ := he
  obtain ⟨p, hp, hparent⟩ := Option.bind_eq_some_iff.1 hparent
  obtain ⟨htype, -⟩ := h e.adapter p hp
  have hfirst : (Lineup.ledBy p).order r = p :: r.plugins.values.erase p :=
    if_pos (mem_values_iff.2 ⟨e.adapter, hp⟩)
  have hreported : ¬ (e.parent = defaultAdapterType ∨ r.plugins.contains e.parent = true) := by
    rw [contains_iff, hmissing]
    simp [hdefault]
  refine ⟨p, ?_⟩
  unfold unknownParent?
  rw [hfirst, List.findSome?_cons]
  simp only [hparent, if_neg hreported, htype]

namespace Config

open Registry

variable {c : Config} {lineup : Lineup} {e : UnknownParent}

/-- The plugins that a configuration declares. -/
def declaredPlugins (c : Config) : List Plugin :=
  c.adapters.toList.map fun (type, a) => ⟨type, a.package, a.parent⟩

theorem registry_eq (c : Config) (lineup : Lineup) :
    c.registry lineup = match (builtin.registerAll c.declaredPlugins).unknownParent? lineup with
      | some e => .error e
      | none => .ok (builtin.registerAll c.declaredPlugins) := rfl

theorem mem_declaredPlugins {p : Plugin} :
    p ∈ c.declaredPlugins ↔ ∃ a, c.adapters[p.adapterType]? = some a ∧ p = ⟨p.adapterType, a.package, a.parent⟩ := by
  simp only [declaredPlugins, List.mem_map, Prod.exists, Std.ExtTreeMap.mem_toList_iff_getElem?_eq_some]
  constructor
  · rintro ⟨type, a, ha, rfl⟩
    exact ⟨a, ha, rfl⟩
  · rintro ⟨a, ha, hp⟩
    exact ⟨p.adapterType, a, ha, hp.symm⟩

theorem pairwise_declaredPlugins (c : Config) :
    c.declaredPlugins.Pairwise fun p q => p.adapterType ≠ q.adapterType := by
  refine List.pairwise_map.2 (Std.ExtTreeMap.distinct_keys_toList.imp ?_)
  rintro ⟨type, a⟩ ⟨other, b⟩ hne rfl
  exact hne (compare_eq_iff_eq.2 rfl)

/-- In whatever order the plugins of a configuration are registered, they replace the builtin ones of their types. -/
theorem get?_registerAll_of_perm {plugins : List Plugin} (h : plugins.Perm c.declaredPlugins)
    (type : String) :
    (builtin.registerAll plugins).get? type =
      (c.adapters[type]?.map fun a => ⟨type, a.package, a.parent⟩).or (builtin.get? type) := by
  rw [get?_registerAll ((h.pairwise_iff fun hne => hne.symm).2 c.pairwise_declaredPlugins)]
  congr 1
  cases ha : c.adapters[type]? with
  | none =>
    refine List.find?_eq_none.2 fun p hp => ?_
    obtain ⟨a, hpa, -⟩ := mem_declaredPlugins.1 (h.mem_iff.1 hp)
    rintro htype
    rw [beq_iff_eq.1 htype, ha] at hpa
    cases hpa
  | some a =>
    have hmem : (⟨type, a.package, a.parent⟩ : Plugin) ∈ plugins :=
      h.mem_iff.2 (mem_declaredPlugins.2 ⟨a, ha, rfl⟩)
    have hsome : (plugins.find? (·.adapterType == type)).isSome :=
      List.find?_isSome.2 ⟨_, hmem, beq_iff_eq.2 rfl⟩
    obtain ⟨p, hfound⟩ := Option.isSome_iff_exists.1 hsome
    have htype := List.find?_some hfound
    obtain rfl := beq_iff_eq.1 htype
    obtain ⟨b, hb, hp⟩ := mem_declaredPlugins.1 (h.mem_iff.1 (List.mem_of_find?_eq_some hfound))
    rw [ha, Option.some.injEq] at hb
    rw [hfound, Option.map_some, hb, ← hp]

theorem registerAll_of_perm {plugins : List Plugin} (h : plugins.Perm c.declaredPlugins) :
    builtin.registerAll plugins = builtin.registerAll c.declaredPlugins := by
  refine congrArg Registry.mk (Std.ExtTreeMap.ext_getElem? fun type => ?_)
  exact (get?_registerAll_of_perm h type).trans (get?_registerAll_of_perm (.refl _) type).symm

/-- The adapters of a configuration are accepted if and only if no parent is missing. -/
theorem registry_eq_ok_iff {r : Registry} :
    c.registry lineup = .ok r ↔ r = builtin.registerAll c.declaredPlugins ∧ r.Closed := by
  rw [registry_eq, ← @unknownParent?_eq_none_iff r lineup]
  cases hunknown : (builtin.registerAll c.declaredPlugins).unknownParent? lineup with
  | none =>
    constructor
    · rintro ⟨⟩
      exact ⟨rfl, hunknown⟩
    · rintro ⟨rfl, -⟩
      rfl
  | some e =>
    refine iff_of_false nofun ?_
    rintro ⟨rfl, hnone⟩
    rw [hunknown] at hnone
    cases hnone

/-- Whether the adapters are accepted does not depend on the lineup. -/
theorem registry_eq_ok_congr {lineup' : Lineup} {r : Registry} :
    c.registry lineup = .ok r ↔ c.registry lineup' = .ok r :=
  registry_eq_ok_iff.trans registry_eq_ok_iff.symm

/-- Among the builtin adapters and those of the configuration, one declares this parent, which is missing. -/
def Lacks (c : Config) (e : UnknownParent) : Prop := (builtin.registerAll c.declaredPlugins).Lacks e

theorem lacks_of_registry_eq_error (h : c.registry lineup = .error e) : c.Lacks e := by
  rw [registry_eq] at h
  split at h
  · rename_i hunknown
    cases h
    exact (typed_builtin.registerAll _).lacks_of_unknownParent? hunknown
  · cases h

/-- Which missing parent is the error depends on the order in which a run comes to the plugins, and on nothing else:
any of them is. -/
theorem exists_registry_eq_error_iff : (∃ lineup, c.registry lineup = .error e) ↔ c.Lacks e := by
  constructor
  · rintro ⟨lineup, h⟩
    exact lacks_of_registry_eq_error h
  · intro h
    obtain ⟨p, hp⟩ := (typed_builtin.registerAll c.declaredPlugins).exists_unknownParent?_ledBy h
    exact ⟨.ledBy p, by rw [registry_eq, hp]⟩

example :
    let adapters : List (String × AdapterConfig) := [("x", ⟨"p", some "nope"⟩), ("y", ⟨"q", some "nada"⟩)]
    let c : Config := { adapters := Std.ExtTreeMap.ofList adapters compare }
    c.registry = .error ⟨"x", "nope"⟩ ∧ c.registry (.ledBy ⟨"y", "q", some "nada"⟩) = .error ⟨"y", "nada"⟩ := by
  decide +kernel

end Config

open Registry

/-- **Adapters inherit along the longest path of parents.** Whatever is registered, the loop that follows parents ends,
after at most one round more than there are plugins, with the longest path of parents from the type that repeats none
and stops before the default type; the chain is this path and then the default type. The adapters of a configuration,
which replace builtin ones of their types in whatever order they are registered, are accepted if and only if every
parent is registered or the default type; an error names one that is missing. Then every type that a registered one
inherits from is registered, but for the default type, and the internal packages are theirs, in the order of the chain,
and the fallback. -/
theorem inheritance_by_parent_paths :
    (∀ (r : Registry) (type : String), ∃ path,
      r.typeChain type = path ++ [defaultAdapterType] ∧ (r.typeChain type).Nodup ∧
        path.length ≤ r.plugins.size + 1 ∧
        (∀ rounds met, r.Climbs [] (some type) rounds met ↔ rounds = path.length ∧ met = path) ∧
        r.ParentPath (some type) path ∧ ∀ other, r.ParentPath (some type) other → other <+: path) ∧
    (∀ (c : Config) (plugins : List Plugin), plugins.Perm c.declaredPlugins →
      (∀ type, (builtin.registerAll plugins).get? type =
        (c.adapters[type]?.map fun a => ⟨type, a.package, a.parent⟩).or (builtin.get? type)) ∧
      (∀ r, c.registry = .ok r ↔ r = builtin.registerAll plugins ∧ r.Closed) ∧
      ∀ e, c.registry = .error e → (builtin.registerAll plugins).Lacks e) ∧
    ∀ (c : Config) (r : Registry) (type : String), c.registry = .ok r → (r.get? type).isSome →
      ∃ (path : List String) (plugins : List Plugin), r.typeChain type = path ++ [defaultAdapterType] ∧
        path.map r.get? = plugins.map some ∧
        r.internalPackages type = plugins.map (·.packageName) ++
          ((r.get? defaultAdapterType).map (·.packageName)).toList ++ [fallbackPackage] := by
  refine ⟨fun r type => ?_, fun c plugins hperm => ?_, fun c r type hr htype => ?_⟩
  · have hpath : r.ParentPath (some type) (r.ancestry type) := parentPath_ancestry
    have hnodup : (r.typeChain type).Nodup := by
      rw [typeChain_eq, ← List.concat_eq_append]
      exact hpath.nodup.concat hpath.default_not_mem
    refine ⟨r.ancestry type, typeChain_eq, hnodup, hpath.length_le, fun rounds met => ?_, hpath,
      fun other hother => hother.prefix_ancestry⟩
    constructor
    · exact fun hclimbs => hclimbs.unique climbs_ancestry
    · rintro ⟨rfl, rfl⟩
      exact climbs_ancestry
  · refine ⟨Config.get?_registerAll_of_perm hperm, fun r => ?_, fun e he => ?_⟩
    · rw [Config.registerAll_of_perm hperm]
      exact Config.registry_eq_ok_iff
    · rw [Config.registerAll_of_perm hperm]
      exact Config.lacks_of_registry_eq_error he
  · obtain ⟨-, hclosed⟩ := Config.registry_eq_ok_iff.1 hr
    obtain ⟨plugins, hplugins, hpackages⟩ := hclosed.internalPackages_eq htype
    exact ⟨r.ancestry type, plugins, typeChain_eq, hplugins, hpackages⟩

/-- A configuration that lets Postgres inherit from Redshift, which inherits from Postgres, and gives the default type a
package. -/
theorem inheritance_by_parent_paths_cycle :
    let adapters : List (String × AdapterConfig) :=
      [("postgres", ⟨"pg", some "redshift"⟩), ("default", ⟨"base", some "spark"⟩)]
    let c : Config := { adapters := Std.ExtTreeMap.ofList adapters compare }
    ∃ r, c.registry = .ok r ∧ (r.get? "redshift").isSome ∧
      r.typeChain "redshift" = ["redshift", "postgres", "default"] ∧
      r.internalPackages "redshift" = ["dbt_redshift", "pg", "base", "dbt"] := by
  intro adapters c
  have hregistry : c.registry = .ok (builtin.registerAll c.declaredPlugins) := by decide +kernel
  have hknown : ((builtin.registerAll c.declaredPlugins).get? "redshift").isSome := by decide +kernel
  have hchain : (builtin.registerAll c.declaredPlugins).typeChain "redshift" = ["redshift", "postgres", "default"] := by
    decide +kernel
  obtain ⟨-, -, hpackages⟩ := inheritance_by_parent_paths
  obtain ⟨path, plugins, hpath, hplugins, hinternal⟩ := hpackages c _ "redshift" hregistry hknown
  refine ⟨_, hregistry, hknown, hchain, hinternal.trans ?_⟩
  obtain rfl : path = ["redshift", "postgres"] := List.append_cancel_right (hpath.symm.trans hchain)
  have hregistered : ["redshift", "postgres"].map (builtin.registerAll c.declaredPlugins).get? =
      [⟨"redshift", "dbt_redshift", some "postgres"⟩, ⟨"postgres", "pg", some "redshift"⟩].map some := by
    decide +kernel
  obtain rfl := List.map_injective_iff.2 (Option.some_injective Plugin) (hplugins.symm.trans hregistered)
  decide +kernel

end Lineage
