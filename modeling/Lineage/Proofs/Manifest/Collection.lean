import Lineage.Manifest.Basic
import Mathlib.Data.List.Sort
import Mathlib.Data.String.Basic

/-!
# Collections

The values of a collection are those that a lookup finds (`mem_values_iff`), in the order of their keys, so
collections that hold the same values of a kind list them alike (`filter_values_congr`). In a collection in
order, each value stands under its own identity (`Keyed`). Identities that are grouped by a key stand there as they
come (`getD_foldl_group`).
-/

namespace Lineage

/-! ## Collections in order -/

/-- Each entry stands under its own identity and satisfies `p`. -/
def Keyed {α : Type} (uniqueId : α → NodeId) (p : α → Prop) (records : Collection α) : Prop :=
  ∀ id a, records[id]? = some a → uniqueId a = id ∧ p a

namespace Keyed

variable {α : Type} {uniqueId : α → NodeId} {p : α → Prop} {records : Collection α}

theorem empty : Keyed uniqueId p ∅ := by
  intro id a ha
  rw [Std.ExtTreeMap.getElem?_empty] at ha
  cases ha

theorem insert (h : Keyed uniqueId p records) {a : α} (ha : p a) :
    Keyed uniqueId p (records.insert (uniqueId a) a) := by
  intro id b hb
  rw [Std.ExtTreeMap.getElem?_insert] at hb
  split at hb
  · rename_i heq
    cases hb
    exact ⟨Std.LawfulEqOrd.compare_eq_iff_eq.1 heq, ha⟩
  · exact h id b hb

theorem erase (h : Keyed uniqueId p records) (id : NodeId) : Keyed uniqueId p (records.erase id) := by
  intro other a ha
  rw [Std.ExtTreeMap.getElem?_erase] at ha
  split at ha
  · cases ha
  · exact h other a ha

end Keyed

/-! ## The values of a collection -/

theorem values_eq {α : Type} (c : Collection α) : c.values = c.toList.map (·.2) := by
  obtain ⟨c⟩ := c
  induction c using Std.ExtDTreeMap.inductionOn with
  | mk c =>
    have htoList : Std.DTreeMap.Internal.Impl.Const.toList c.inner =
        c.inner.toListModel.map fun e => (e.1, e.2) :=
      Std.DTreeMap.Internal.Impl.Const.toList_eq_toListModel_map
    refine Std.DTreeMap.Internal.Impl.values_eq_map_snd.trans ?_
    show _ = (Std.DTreeMap.Internal.Impl.Const.toList c.inner).map (·.2)
    rw [htoList, List.map_map]
    rfl

theorem mem_values_iff {α : Type} {col : Collection α} {a : α} :
    a ∈ col.values ↔ ∃ id : NodeId, col[id]? = some a := by
  simp only [values_eq, List.mem_map, Prod.exists, exists_eq_right, Std.ExtTreeMap.mem_toList_iff_getElem?_eq_some]

/-- Collections that hold the same records of a kind under the same keys list them alike. -/
theorem filter_values_congr {α : Type} {col col' : Collection α} {p : α → Bool}
    (h : ∀ (id : NodeId) (a : α), p a = true → (col'[id]? = some a ↔ col[id]? = some a)) :
    col'.values.filter p = col.values.filter p := by
  have hsorted : ∀ col : Collection α,
      (col.toList.filter (p ·.2)).Pairwise fun a b => a.1 < b.1 := fun col =>
    (Std.ExtTreeMap.ordered_keys_toList.imp compare_lt_iff_lt.1).filter _
  have hentries : col'.toList.filter (p ·.2) = col.toList.filter (p ·.2) := by
    have : Std.Antisymm fun a b : NodeId × α => a.1 < b.1 := ⟨fun _ _ h h' => absurd h' h.asymm⟩
    have : Std.Irrefl fun a b : NodeId × α => a.1 < b.1 := ⟨fun a => lt_irrefl a.1⟩
    refine (hsorted col').eq_of_mem_iff (hsorted col) fun ⟨id, a⟩ => ?_
    rw [List.mem_filter, List.mem_filter, Std.ExtTreeMap.mem_toList_iff_getElem?_eq_some,
      Std.ExtTreeMap.mem_toList_iff_getElem?_eq_some]
    exact and_congr_left (h id a)
  rw [values_eq, values_eq, List.filter_map, List.filter_map]
  exact congrArg (List.map Prod.snd) hentries

/-- A value of a collection in order is found under its own identity. -/
theorem Keyed.getElem?_of_mem_values {α : Type} {uniqueId : α → NodeId} {p : α → Prop} {records : Collection α}
    (h : Keyed uniqueId p records) {a : α} (ha : a ∈ records.values) : records[uniqueId a]? = some a ∧ p a := by
  obtain ⟨id, hget⟩ := mem_values_iff.1 ha
  obtain ⟨rfl, hp⟩ := h id a hget
  exact ⟨hget, hp⟩

/-! ## Groups by key -/

namespace Manifest

variable {κ : Type} {order : κ → κ → Ordering} [Std.TransCmp order] [Std.LawfulEqCmp order]

/-- The keys are those of the entries. -/
theorem mem_foldl_group (entries : List (κ × NodeId)) (groups : Std.ExtTreeMap κ (List NodeId) order) (key : κ) :
    key ∈ entries.foldl (fun groups (key, id) => groups.insert key (groups.getD key [] ++ [id])) groups ↔
      key ∈ groups ∨ ∃ id, (key, id) ∈ entries := by
  induction entries generalizing groups with
  | nil => simp
  | cons entry entries ih =>
    obtain ⟨other, id⟩ := entry
    rw [List.foldl_cons, ih, Std.ExtTreeMap.mem_insert, Std.LawfulEqCmp.compare_eq_iff_eq]
    simp only [List.mem_cons, Prod.mk.injEq]
    constructor
    · rintro ((rfl | hkey) | ⟨id', hentry⟩)
      · exact .inr ⟨id, .inl ⟨rfl, rfl⟩⟩
      · exact .inl hkey
      · exact .inr ⟨id', .inr hentry⟩
    · rintro (hkey | ⟨id', ⟨rfl, -⟩ | hentry⟩)
      · exact .inl (.inr hkey)
      · exact .inl (.inl rfl)
      · exact .inr ⟨id', hentry⟩

variable [DecidableEq κ]

/-- The identities under one key, as they come. -/
def idsOf (entries : List (κ × NodeId)) (key : κ) : List NodeId := (entries.filter (·.1 == key)).map (·.2)

theorem mem_idsOf {entries : List (κ × NodeId)} {key : κ} {id : NodeId} :
    id ∈ idsOf entries key ↔ (key, id) ∈ entries := by
  unfold idsOf
  simp

/-- Each entry is put behind those of its key. -/
theorem getD_foldl_group (entries : List (κ × NodeId)) (groups : Std.ExtTreeMap κ (List NodeId) order) (key : κ) :
    (entries.foldl (fun groups (key, id) => groups.insert key (groups.getD key [] ++ [id])) groups).getD key [] =
      groups.getD key [] ++ idsOf entries key := by
  induction entries generalizing groups with
  | nil => exact (List.append_nil _).symm
  | cons entry entries ih =>
    obtain ⟨other, id⟩ := entry
    rw [List.foldl_cons, ih, idsOf, idsOf, List.filter_cons, Std.ExtTreeMap.getD_insert]
    by_cases hkey : other = key
    · subst hkey
      simp
    · have horder : order other key ≠ .eq := fun h => hkey (Std.LawfulEqCmp.eq_of_compare h)
      simp [hkey, horder]

end Manifest

end Lineage
