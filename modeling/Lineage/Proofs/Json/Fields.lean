import Lineage.Proofs.Json.Codec
import Lineage.Proofs.Json.Nesting

/-!
# Fields and maps that are written and read

What is read from a field, in terms of what stands under its name, and from a map that was written value by value
(`Json.mapOf_ofMap`). The values need not have been read before, as they have for a `Json.Codec`.
-/

namespace Lineage.Json

/-! ## Fields -/

section Fields

variable {name : String} {fields : List (String × Json)}

/-- A null is read as no value. -/
theorem optional_any {a : Option Json} (hlookup : fields.lookup name = a.map id)
    (hsorted : ∀ v, a = some v → v.normalize = v) : optional name any fields = some (a.filter (· != .null)) := by
  rw [optional, hlookup]
  cases a with
  | none => rfl
  | some v =>
    by_cases hnull : v = .null
    · subst hnull
      rfl
    · rw [Option.filter_some, if_pos (bne_iff_ne.2 hnull)]
      simp [orNull_of_ne hnull, any, hsorted v rfl]

theorem optional_of_lookup {α : Type} {read : Json → Option α} {write : α → Json} {a : Option α}
    (hlookup : fields.lookup name = a.map write) (hread : ∀ a, read (write a) = some a)
    (hnull : ∀ a, write a ≠ .null) : optional name read fields = some a := by
  rw [optional, hlookup]
  cases a with
  | none => rfl
  | some a => simp [orNull_of_ne (hnull a), hread]

theorem optional_text {a : Option String} (hlookup : fields.lookup name = a.map .str) :
    optional name text fields = some a :=
  optional_of_lookup hlookup (fun _ => rfl) nofun

theorem optional_flag {a : Option Bool} (hlookup : fields.lookup name = a.map .bool) :
    optional name flag fields = some a :=
  optional_of_lookup hlookup (fun _ => rfl) nofun

theorem required_text {a : String} (hlookup : fields.lookup name = some (.str a)) :
    required name text fields = some a := by
  rw [required, hlookup]
  rfl

theorem defaulted_of_lookup {α : Type} {read : Json → Option α} {value : Json} {fallback a : α}
    (hlookup : fields.lookup name = some value) (hread : read value = some a) :
    defaulted name read fallback fields = some a := by
  rw [defaulted, hlookup]
  exact hread

end Fields

/-! ## Maps -/

section Maps

variable {α : Type} {read : Json → Option α} {write : α → Json} {m : Std.ExtTreeMap String α compare}

theorem mapOf_ofMap {f : α → α} (h : ∀ (name : String) (a : α), m[name]? = some a → read (write a) = some (f a)) :
    mapOf read (ofMap write m) = some (m.map fun _ a => f a) := by
  have hentries : (m.toList.map fun (name, a) => (name, write a)).mapM
      (fun field => (read field.2).map (field.1, ·)) = some (m.map fun _ a => f a).toList := by
    rw [List.mapM_map, Std.ExtTreeMap.toList_map]
    refine mapM_eq_some fun (name, a) hentry => ?_
    simp [h name a (Std.ExtTreeMap.mem_toList_iff_getElem?_eq_some.1 hentry)]
  rw [ofMap, mapOf, hentries, Option.map_some, ofList_toList]

theorem mapOf_ofMap_self (h : ∀ (name : String) (a : α), m[name]? = some a → read (write a) = some a) :
    mapOf read (ofMap write m) = some m := by
  rw [mapOf_ofMap h]
  simp

end Maps

/-! ## Levels -/

section Levels

variable {α : Type} {write : α → Json} {p : Number → Prop} {depth : Nat}

theorem fits_str (s : String) : Fits p .whole depth (.str s) := .str Focus.whole_kept

theorem fits_bool (b : Bool) : Fits p .whole depth (.bool b) := .bool Focus.whole_kept

theorem forall_mem_optionalField {name : String} {a : Option α} {P : String × Json → Prop} :
    (∀ field ∈ optionalField name write a, P field) ↔ ∀ v, a = some v → P (name, write v) := by
  cases a with
  | none => exact iff_of_true nofun nofun
  | some a => simp [optionalField]

theorem fits_ofMap_iff {m : Std.ExtTreeMap String α compare} :
    Fits p .whole (depth + 1) (ofMap write m) ↔
      ∀ (name : String) (a : α), m[name]? = some a → Fits p .whole depth (write a) := by
  rw [ofMap, fits_obj_iff, List.forall_mem_map]
  simp only [Prod.forall, Std.ExtTreeMap.mem_toList_iff_getElem?_eq_some]

end Levels

end Lineage.Json
