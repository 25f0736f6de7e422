import Lineage.Json.Focus
import Mathlib.Data.String.Basic
import Std.Data.ExtTreeMap.Lemmas

/-!
# Facts about JSON values

Main results:
* `Json.getElem?_ofList`: of several entries with one name, a map has the last.
* `Json.normalize_normalize`: sorting the fields of a value twice is sorting them once.
* `Json.Fits.normalize`: a value whose fields are sorted nests no deeper and has no other numbers.
* `Json.Fits.of_numbers`: what is asked of the numbers may be changed for one that holds of each of them.

`Json.Fits` says that a text of the value is read as that value: it does not nest too deep, its numbers can
be read, and the focus leaves nothing of it out.
-/

namespace Lineage.Json

/-! ## Induction -/

/-- A statement about values is proved from the statement about their parts. -/
theorem induct {motive : Json → Prop} (null : motive .null) (bool : ∀ b, motive (.bool b))
    (num : ∀ n, motive (.num n)) (str : ∀ s, motive (.str s))
    (arr : ∀ items, (∀ item ∈ items, motive item) → motive (.arr items))
    (obj : ∀ fields, (∀ field ∈ fields, motive field.2) → motive (.obj fields)) :
    ∀ v, motive v
  | .null => null
  | .bool b => bool b
  | .num n => num n
  | .str s => str s
  | .arr items => arr items fun item _ => induct null bool num str arr obj item
  | .obj fields => obj fields fun field _ => induct null bool num str arr obj field.2
termination_by v => sizeOf v
decreasing_by
  · have hitem := List.sizeOf_lt_of_mem ‹item ∈ items›
    simp only [Json.arr.sizeOf_spec]
    omega
  · have hfield := List.sizeOf_lt_of_mem ‹field ∈ fields›
    obtain ⟨name, value⟩ := field
    simp only [Prod.mk.sizeOf_spec, Json.obj.sizeOf_spec] at *
    omega

/-! ## Maps and their entries -/

section Entries

variable {α : Type} {entries : List (String × α)} {entry : String × α}

/-- A map that is filled in steps has the entries it had and those it was given. -/
theorem mem_toList_foldl (m : Std.ExtTreeMap String α compare)
    (h : entry ∈ (entries.foldl (fun m e => m.insert e.1 e.2) m).toList) :
    entry ∈ m.toList ∨ entry ∈ entries := by
  induction entries generalizing m with
  | nil => exact .inl h
  | cons e entries ih =>
    rcases ih _ h with h | h
    · rw [Std.ExtTreeMap.mem_toList_iff_getElem?_eq_some, Std.ExtTreeMap.getElem?_insert] at h
      split at h
      · rename_i heq
        have hentry : entry = e := Prod.ext (compare_eq_iff_eq.1 heq).symm (Option.some.inj h).symm
        exact .inr (List.mem_cons.2 (.inl hentry))
      · exact .inl (Std.ExtTreeMap.mem_toList_iff_getElem?_eq_some.2 h)
    · exact .inr (List.mem_cons_of_mem _ h)

theorem mem_of_mem_ofList (h : entry ∈ (Std.ExtTreeMap.ofList entries compare).toList) : entry ∈ entries := by
  rw [Std.ExtTreeMap.ofList_eq_foldl] at h
  rcases mem_toList_foldl ∅ h with h | h
  · rw [Std.ExtTreeMap.mem_toList_iff_getElem?_eq_some, Std.ExtTreeMap.getElem?_empty] at h
    cases h
  · exact h

theorem ofList_toList (m : Std.ExtTreeMap String α compare) : Std.ExtTreeMap.ofList m.toList compare = m := by
  apply Std.ExtTreeMap.ext_getElem?
  intro name
  cases hm : m[name]? with
  | none =>
    apply Std.ExtTreeMap.getElem?_ofList_of_contains_eq_false
    rw [Std.ExtTreeMap.map_fst_toList_eq_keys, ← Bool.not_eq_true, List.contains_iff_mem,
      Std.ExtTreeMap.mem_keys, Std.ExtTreeMap.mem_iff_isSome_getElem?, hm]
    simp
  | some value =>
    exact Std.ExtTreeMap.getElem?_ofList_of_mem Std.ReflCmp.compare_self Std.ExtTreeMap.distinct_keys_toList
      (Std.ExtTreeMap.mem_toList_iff_getElem?_eq_some.2 hm)

theorem lookup_map_value {β : Type} {name : String} (f : String → α → β) (entries : List (String × α)) :
    (entries.map fun entry => (entry.1, f entry.1 entry.2)).lookup name = (entries.lookup name).map (f name) := by
  induction entries with
  | nil => rfl
  | cons entry entries ih =>
    rw [List.map_cons, List.lookup_cons, List.lookup_cons]
    by_cases hname : name = entry.1
    · simp [hname]
    · rw [beq_eq_false_iff_ne.2 hname]
      exact ih

/-- Entries are found if all of their name are kept. -/
theorem lookup_filter_of_forall {name : String} {p : String × α → Bool} (h : ∀ value, p (name, value) = true)
    (entries : List (String × α)) : (entries.filter p).lookup name = entries.lookup name := by
  induction entries with
  | nil => rfl
  | cons entry entries ih =>
    obtain ⟨key, value⟩ := entry
    by_cases hname : name = key
    · subst hname
      simp [h]
    · have hbeq : (name == key) = false := beq_eq_false_iff_ne.2 hname
      rw [List.filter_cons, List.lookup_cons, hbeq, ← ih]
      split
      · rw [List.lookup_cons, hbeq]
      · rfl

/-- A map that is filled in steps has the last entry of each name, or the one it had. -/
theorem getElem?_foldl_insert (m : Std.ExtTreeMap String α compare) (entries : List (String × α)) (name : String) :
    (entries.foldl (fun m e => m.insert e.1 e.2) m)[name]? = (entries.reverse.lookup name).or m[name]? := by
  induction entries generalizing m with
  | nil => rfl
  | cons entry entries ih =>
    obtain ⟨key, value⟩ := entry
    rw [List.foldl_cons, ih, List.reverse_cons, List.lookup_append, Option.or_assoc,
      Std.ExtTreeMap.getElem?_insert]
    congr 1
    by_cases hname : name = key
    · subst hname
      rw [List.lookup_cons_self, if_pos Std.ReflCmp.compare_self, Option.some_or]
    · have hbeq : (name == key) = false := beq_eq_false_iff_ne.2 hname
      have hne : compare key name ≠ .eq := fun heq => hname (compare_eq_iff_eq.1 heq).symm
      rw [List.lookup_cons, hbeq, if_neg hne]
      rfl

theorem getElem?_ofList (entries : List (String × α)) (name : String) :
    (Std.ExtTreeMap.ofList entries compare)[name]? = entries.reverse.lookup name := by
  rw [Std.ExtTreeMap.ofList_eq_foldl, getElem?_foldl_insert, Std.ExtTreeMap.getElem?_empty, Option.or_none]

end Entries

/-! ## Sorted fields -/

theorem normalizeItems_eq (items : List Json) : normalizeItems items = items.map normalize := by
  induction items with
  | nil => rfl
  | cons item items ih => rw [normalizeItems, ih, List.map_cons]

theorem normalizeFields_eq (fields : List (String × Json)) :
    normalizeFields fields = fields.map fun field => (field.1, field.2.normalize) := by
  induction fields with
  | nil => rfl
  | cons field fields ih => rw [normalizeFields, ih, List.map_cons]

/-- The fields of a sorted object are fields it had, with sorted values. -/
theorem mem_normalize_obj {fields : List (String × Json)} {field : String × Json}
    (h : field ∈ (Std.ExtTreeMap.ofList (normalizeFields fields) compare).toList) :
    ∃ value, (field.1, value) ∈ fields ∧ field.2 = value.normalize := by
  have hmem := mem_of_mem_ofList h
  rw [normalizeFields_eq] at hmem
  obtain ⟨⟨name, value⟩, hin, rfl⟩ := List.mem_map.1 hmem
  exact ⟨value, hin, rfl⟩

theorem normalize_normalize (v : Json) : v.normalize.normalize = v.normalize := by
  induction v using induct with
  | null | bool | num | str => rfl
  | arr items ih =>
    simp only [normalize, normalizeItems_eq, List.map_map]
    congr 1
    exact List.map_congr_left ih
  | obj fields ih =>
    rw [normalize, normalize]
    congr 1
    -- The fields of a sorted object have sorted values, so only the map is filled anew.
    have hsame : ∀ m : Fields, (∀ field ∈ m.toList, field.2.normalize = field.2) →
        normalizeFields m.toList = m.toList := by
      intro m hm
      rw [normalizeFields_eq]
      refine (List.map_congr_left fun field hfield => ?_).trans (List.map_id _)
      rw [hm field hfield]
      rfl
    rw [hsame, ofList_toList]
    intro field hfield
    obtain ⟨value, hin, hvalue⟩ := mem_normalize_obj hfield
    rw [hvalue]
    exact ih _ hin

theorem normalize_eq_null {v : Json} (h : v.normalize = .null) : v = .null := by
  cases v with
  | null => rfl
  | bool | num | str => exact h
  | arr items => simp [normalize] at h
  | obj fields => simp [normalize] at h

/-! ## Numbers -/

mutual

/-- The numbers of a value, in the order in which they are written. -/
def numbers : Json → List Number
  | .num n => [n]
  | .arr items => numbersOfItems items
  | .obj fields => numbersOfFields fields
  | _ => []

def numbersOfItems : List Json → List Number
  | [] => []
  | item :: items => item.numbers ++ numbersOfItems items

def numbersOfFields : List (String × Json) → List Number
  | [] => []
  | (_, value) :: fields => value.numbers ++ numbersOfFields fields

end

theorem numbersOfItems_eq (items : List Json) : numbersOfItems items = items.flatMap numbers := by
  induction items with
  | nil => rfl
  | cons item items ih => rw [numbersOfItems, ih, List.flatMap_cons]

theorem numbersOfFields_eq (fields : List (String × Json)) :
    numbersOfFields fields = fields.flatMap fun field => field.2.numbers := by
  induction fields with
  | nil => rfl
  | cons field fields ih => rw [numbersOfFields, ih, List.flatMap_cons]

/-! ## What fits a reader -/

namespace Focus

theorem whole_kept : whole ≠ nothing := by
  intro h
  cases h

theorem each_kept (focus : Focus) : each focus ≠ nothing := by
  intro h
  cases h

theorem record_kept (fields : List (String × Focus)) (others : Focus) : record fields others ≠ nothing := by
  intro h
  cases h

end Focus

/-- With the focus, and `depth` more levels to be opened, nothing of the value is lost, and its numbers
satisfy `p`. -/
inductive Fits (p : Number → Prop) : Focus → Nat → Json → Prop
  | null {focus depth} (kept : focus ≠ .nothing) : Fits p focus depth .null
  | bool {focus depth b} (kept : focus ≠ .nothing) : Fits p focus depth (.bool b)
  | num {focus depth n} (kept : focus ≠ .nothing) (h : p n) : Fits p focus depth (.num n)
  | str {focus depth s} (kept : focus ≠ .nothing) : Fits p focus depth (.str s)
  | arr {focus depth items} (kept : focus ≠ .nothing)
    (h : ∀ place item, items[place]? = some item → Fits p (focus.item place) depth item) :
    Fits p focus (depth + 1) (.arr items)
  | obj {focus depth fields} (kept : focus ≠ .nothing)
    (h : ∀ name value, (name, value) ∈ fields → Fits p (focus.field name) depth value) :
    Fits p focus (depth + 1) (.obj fields)

namespace Fits

variable {p q : Number → Prop} {focus : Focus} {depth : Nat} {v : Json}

theorem kept (h : Fits p focus depth v) : focus ≠ .nothing := by
  cases h <;> assumption

/-- An array fits if the same is kept of each item. -/
theorem arr_of_mem {items : List Json} {inner : Focus} (kept : focus ≠ .nothing)
    (hitem : ∀ place, focus.item place = inner) (h : ∀ item ∈ items, Fits p inner depth item) :
    Fits p focus (depth + 1) (.arr items) := by
  refine .arr kept fun place item hplace => ?_
  rw [hitem]
  exact h item (List.mem_of_getElem? hplace)

/-- A reader that keeps everything loses nothing of what another one keeps. -/
theorem whole (h : Fits p focus depth v) : Fits p .whole depth v := by
  induction h with
  | null => exact .null Focus.whole_kept
  | bool => exact .bool Focus.whole_kept
  | num _ h => exact .num Focus.whole_kept h
  | str => exact .str Focus.whole_kept
  | arr _ _ ih => exact .arr Focus.whole_kept ih
  | obj _ _ ih => exact .obj Focus.whole_kept ih

theorem normalize (h : Fits p focus depth v) : Fits p .whole depth v.normalize := by
  induction h with
  | null => exact .null nofun
  | bool => exact .bool nofun
  | num _ h => exact .num nofun h
  | str => exact .str nofun
  | arr _ _ ih =>
    rw [Json.normalize, normalizeItems_eq]
    refine .arr_of_mem nofun (fun _ => rfl) fun item hitem => ?_
    obtain ⟨item, hmem, rfl⟩ := List.mem_map.1 hitem
    obtain ⟨place, hplace⟩ := List.mem_iff_getElem?.1 hmem
    exact ih place item hplace
  | obj _ _ ih =>
    rw [Json.normalize]
    refine .obj nofun fun name value hfield => ?_
    obtain ⟨value, hin, rfl⟩ := mem_normalize_obj hfield
    exact ih name value hin

theorem of_numbers (h : Fits p focus depth v) (hpq : ∀ n ∈ v.numbers, p n → q n) : Fits q focus depth v := by
  induction h with
  | null kept => exact .null kept
  | bool kept => exact .bool kept
  | num kept h => exact .num kept (hpq _ (by simp [numbers]) h)
  | str kept => exact .str kept
  | arr kept _ ih =>
    refine .arr kept fun place item hplace => ih place item hplace fun n hn => hpq n ?_
    rw [numbers, numbersOfItems_eq]
    exact List.mem_flatMap.2 ⟨item, List.mem_of_getElem? hplace, hn⟩
  | obj kept _ ih =>
    refine .obj kept fun name value hfield => ih name value hfield fun n hn => hpq n ?_
    rw [numbers, numbersOfFields_eq]
    exact List.mem_flatMap.2 ⟨(name, value), hfield, hn⟩

end Fits

end Lineage.Json
