import Lineage.Proofs.Json.Codec

/-!
# What becomes of a value that is read and written

`Json.Rewrites` says of a reader and a writer how the value that is written differs from the one that was read.
The difference is given as a function on JSON values, so that it can be looked at without either of them: most
often the identity, for records a rule for some of their fields.

Main results:
* `Json.Rewrites.mapOf`: a map keeps its names, and each of its values is changed as one value is.
* `Json.normalize_written`: a record changes in the fields that have a rule, and nowhere else.
-/

namespace Lineage.Json

/-! ## Changes -/

/-- Changes the fields of an object. -/
def onFields (change : Fields → Fields) : Json → Json
  | .obj fields => .obj (change (.ofList fields compare)).toList
  | other => other

/-- Changes the value of each field. -/
def onEach (change : Json → Json) : Json → Json := onFields (·.map fun _ value => change value)

/-- What becomes of the fields of some names, each of which may be missing before and after. -/
abbrev Rules := List (String × (Option Json → Option Json))

/-- What becomes of the field of a name; it stays as it is if no rule is for it. -/
def Rules.at (rules : Rules) (name : String) : Option Json → Option Json := (rules.lookup name).getD id

/-- Changes a record field by field. -/
def onRecord (rules : Rules) : Json → Json :=
  onFields fun fields => rules.foldl (fun fields rule => fields.alter rule.1 rule.2) fields

/-- The value is changed if it is there. -/
def ifThere (change : Json → Json) : Option Json → Option Json := Option.map change

/-- Null is dropped. -/
def unlessNull : Option Json → Option Json := Option.filter (· ≠ .null)

/-- A missing value is made up for by an empty object. -/
def filled (change : Json → Json) (value : Option Json) : Option Json := some (change (value.getD (.obj [])))

/-! ## Values -/

/-- What is written for a value that was read is that value, changed. -/
def Rewrites {α : Type} (read : Json → Option α) (write : α → Json) (change : Json → Json) : Prop :=
  ∀ ⦃j : Json⦄ ⦃a : α⦄, read j = some a → (write a).normalize = change j.normalize

theorem text_rewrites : Rewrites text .str id := by
  intro j s h
  cases j with
  | str s' =>
    cases h
    rfl
  | _ => cases h

theorem flag_rewrites : Rewrites flag .bool id := by
  intro j b h
  cases j with
  | bool b' =>
    cases h
    rfl
  | _ => cases h

theorem any_rewrites : Rewrites any id id := by
  intro j v h
  obtain rfl := Option.some.inj h
  exact normalize_normalize j

/-- Reading each element can be undone if reading one can. -/
theorem map_eq_of_mapM {α β : Type} {f : α → Option β} {g : β → α} (h : ∀ a b, f a = some b → g b = a)
    {l : List α} {bs : List β} (hl : l.mapM f = some bs) : bs.map g = l := by
  induction l generalizing bs with
  | nil =>
    obtain rfl := Option.some.inj hl
    rfl
  | cons a l ih =>
    rw [List.mapM_cons] at hl
    obtain ⟨b, hb, hl⟩ := Option.bind_eq_some_iff.1 hl
    obtain ⟨others, hothers, hl⟩ := Option.bind_eq_some_iff.1 hl
    obtain rfl := Option.some.inj hl
    rw [List.map_cons, h a b hb, ih hothers]

theorem text_list_rewrites : Rewrites (listOf text) strings id := by
  intro j texts h
  cases j with
  | arr items =>
    have htext : ∀ v s, text v = some s → Json.str s = v := by
      intro v s hv
      cases v with
      | str s' =>
        cases hv
        rfl
      | _ => cases hv
    rw [strings, map_eq_of_mapM htext h, id]
  | _ => cases h

theorem any_list_rewrites : Rewrites (listOf any) .arr id := by
  intro j as h
  cases j with
  | arr items =>
    have hitems : items.mapM any = some (items.map normalize) := List.mapM_pure
    obtain rfl := Option.some.inj (h.symm.trans hitems)
    simp only [normalize, normalizeItems_eq, List.map_map, id]
    congr 1
    exact List.map_congr_left fun item _ => normalize_normalize item
  | _ => cases h

section Maps

variable {α : Type} {read : Json → Option α} {write : α → Json} {change : Json → Json}

/-- The fields of an object, the last of each name. -/
theorem normalize_obj (fields : List (String × Json)) :
    (Json.obj fields).normalize = .obj (Std.ExtTreeMap.ofList (normalizeFields fields) compare).toList := by
  rw [normalize]

theorem onFields_obj (change : Fields → Fields) (fields : Fields) :
    onFields change (.obj fields.toList) = .obj (change fields).toList := by
  rw [onFields, ofList_toList]

theorem getElem?_normalizeFields (fields : List (String × Json)) (name : String) :
    (Std.ExtTreeMap.ofList (normalizeFields fields) compare)[name]? =
      (fields.reverse.lookup name).map normalize := by
  rw [getElem?_ofList, normalizeFields_eq, ← List.map_reverse]
  exact lookup_map_value (fun _ => normalize) fields.reverse

/-- Each entry that was read stands for the field of its place. -/
theorem Rewrites.lookup_entries (h : Rewrites read write change) {fields : List (String × Json)}
    {entries : List (String × α)}
    (hread : fields.mapM (fun field => (read field.2).map (field.1, ·)) = some entries) (name : String) :
    (entries.reverse.lookup name).map (fun a => (write a).normalize) =
      ((fields.reverse.lookup name).map normalize).map change := by
  induction fields generalizing entries with
  | nil =>
    obtain rfl := Option.some.inj hread
    rfl
  | cons field fields ih =>
    obtain ⟨key, value⟩ := field
    rw [List.mapM_cons] at hread
    obtain ⟨entry, hentry, hread⟩ := Option.bind_eq_some_iff.1 hread
    obtain ⟨others, hothers, hread⟩ := Option.bind_eq_some_iff.1 hread
    obtain ⟨a, ha, rfl⟩ := Option.map_eq_some_iff.1 hentry
    obtain rfl := Option.some.inj hread
    rw [List.reverse_cons, List.reverse_cons, List.lookup_append, List.lookup_append, Option.map_or, Option.map_or,
      Option.map_or, ih hothers]
    congr 1
    by_cases hname : name = key
    · simp [hname, h ha]
    · have hbeq : (name == key) = false := beq_eq_false_iff_ne.2 hname
      simp [List.lookup_cons, hbeq]

theorem Rewrites.mapOf (h : Rewrites read write change) : Rewrites (mapOf read) (ofMap write) (onEach change) := by
  intro j m hm
  cases j with
  | obj fields =>
    obtain ⟨entries, hentries, rfl⟩ := Option.map_eq_some_iff.1 hm
    have hwritten : normalizeFields ((Std.ExtTreeMap.ofList entries compare).toList.map fun (name, a) => (name, write a)) =
        ((Std.ExtTreeMap.ofList entries compare).map fun _ a => (write a).normalize).toList := by
      rw [normalizeFields_eq, List.map_map, Std.ExtTreeMap.toList_map]
      rfl
    rw [ofMap, normalize_obj, normalize_obj, hwritten, ofList_toList, onEach, onFields_obj]
    congr 2
    apply Std.ExtTreeMap.ext_getElem?
    intro name
    rw [Std.ExtTreeMap.getElem?_map, Std.ExtTreeMap.getElem?_map, getElem?_ofList, getElem?_normalizeFields]
    exact h.lookup_entries hentries name
  | _ => cases hm

theorem onEach_id (v : Json) : onEach id v.normalize = v.normalize := by
  cases v with
  | obj fields =>
    rw [normalize_obj, onEach, onFields_obj]
    congr 2
    apply Std.ExtTreeMap.ext_getElem?
    intro name
    rw [Std.ExtTreeMap.getElem?_map]
    exact Option.map_id_apply
  | _ => rfl

/-- A map of values that stay as they are. -/
theorem Rewrites.mapOf_id (h : Rewrites read write id) : Rewrites (Json.mapOf read) (ofMap write) id := by
  intro j m hm
  rw [h.mapOf hm, onEach_id, id]

end Maps

/-! ## Fields -/

section Records

variable {α : Type} {read : Json → Option α} {write : α → Json} {change : Json → Json} {name : String}
variable {source written : List (String × Json)}

theorem Rewrites.required (h : Rewrites read write change) {a : α} (hread : required name read source = some a)
    (hwritten : written.lookup name = some (write a)) :
    (written.lookup name).map normalize = ifThere change ((source.lookup name).map normalize) := by
  obtain ⟨value, hvalue, ha⟩ := Option.bind_eq_some_iff.1 hread
  rw [hwritten, hvalue, Option.map_some, h ha]
  rfl

theorem Rewrites.kept (h : Rewrites read write id) {a : α} (hread : Json.required name read source = some a)
    (hwritten : written.lookup name = some (write a)) :
    (written.lookup name).map normalize = (source.lookup name).map normalize := by
  rw [h.required hread hwritten, ifThere, Option.map_id, id]

theorem Rewrites.optional (h : Rewrites read write id) {a : Option α}
    (hread : optional name read source = some a) (hwritten : written.lookup name = a.map write) :
    (written.lookup name).map normalize = unlessNull ((source.lookup name).map normalize) := by
  rw [hwritten]
  unfold Json.optional at hread
  split at hread
  · rename_i hmissing
    cases hread
    rw [hmissing]
    rfl
  · rename_i value hvalue
    rw [hvalue]
    by_cases hnull : value = .null
    · subst hnull
      cases hread
      rfl
    · rw [orNull_of_ne hnull] at hread
      obtain ⟨a, ha, rfl⟩ := Option.map_eq_some_iff.1 hread
      have hkeep : value.normalize ≠ .null := fun heq => hnull (normalize_eq_null heq)
      rw [Option.map_some, Option.map_some, h ha, unlessNull, Option.map_some, Option.filter_some,
        if_pos (decide_eq_true hkeep), id]

/-- A default has to be what is read from an empty object. -/
theorem Rewrites.defaulted (h : Rewrites read write change) {fallback a : α}
    (hempty : read (.obj []) = some fallback) (hread : defaulted name read fallback source = some a)
    (hwritten : written.lookup name = some (write a)) :
    (written.lookup name).map normalize = filled change ((source.lookup name).map normalize) := by
  rw [hwritten, Option.map_some]
  unfold Json.defaulted at hread
  split at hread
  · rename_i hmissing
    cases hread
    rw [hmissing, h hempty]
    rfl
  · rename_i value hvalue
    rw [hvalue, h hread]
    rfl

variable {known : List String} {rules : Rules}

theorem lookup_reverse_of_distinct {fields : List (String × Json)} (h : distinct known fields = true)
    (hname : name ∈ known) : fields.reverse.lookup name = fields.lookup name := by
  have hlength : (fields.filter (·.1 == name)).length ≤ 1 := of_decide_eq_true (List.all_eq_true.1 h name hname)
  have hfilter : ∀ fields : List (String × Json), (fields.filter (·.1 == name)).lookup name = fields.lookup name :=
    lookup_filter_of_forall fun value => beq_self_eq_true name
  rw [← hfilter fields, ← hfilter fields.reverse, List.filter_reverse]
  generalize fields.filter (·.1 == name) = found at hlength
  match found, hlength with
  | [], _ => rfl
  | [field], _ => rfl

theorem getElem?_others {fields : List (String × Json)} (hname : name ∉ known) :
    (others known fields)[name]? = (fields.reverse.lookup name).map normalize := by
  rw [others, getElem?_ofList, ← List.map_reverse, ← List.filter_reverse]
  have hkeep : ∀ value : Json, (fun field : String × Json => !known.contains field.1) (name, value) = true := by
    intro value
    simpa using hname
  have hfilter : (fields.reverse.filter fun field => !known.contains field.1).lookup name =
      fields.reverse.lookup name := lookup_filter_of_forall hkeep fields.reverse
  rw [← hfilter]
  exact lookup_map_value (fun _ => normalize) _

theorem Rules.at_of_forall_ne (h : ∀ rule ∈ rules, rule.1 ≠ name) : rules.at name = id := by
  have hnone : rules.lookup name = none := by
    rw [List.lookup_eq_none_iff]
    intro rule hrule
    exact bne_iff_ne.2 (h rule hrule).symm
  rw [Rules.at, hnone, Option.getD_none]

theorem getElem?_alterAll (hnodup : (rules.map (·.1)).Nodup) (fields : Fields) (name : String) :
    (rules.foldl (fun fields rule => fields.alter rule.1 rule.2) fields)[name]? = rules.at name fields[name]? := by
  induction rules generalizing fields with
  | nil => rfl
  | cons rule rules ih =>
    obtain ⟨key, change⟩ := rule
    obtain ⟨hkey, hnodup⟩ := List.nodup_cons.1 hnodup
    rw [List.foldl_cons, ih hnodup, Std.ExtTreeMap.getElem?_alter]
    by_cases hname : name = key
    · subst hname
      have hkept : Rules.at rules name = id := by
        refine Rules.at_of_forall_ne fun rule hrule heq => hkey ?_
        exact List.mem_map.2 ⟨rule, hrule, heq⟩
      rw [hkept]
      simp [Rules.at]
    · have hbeq : (name == key) = false := beq_eq_false_iff_ne.2 hname
      have hne : compare key name ≠ .eq := fun heq => hname (compare_eq_iff_eq.1 heq).symm
      simp [Rules.at, List.lookup_cons, hne, hbeq]

theorem normalize_written (hnodup : (rules.map (·.1)).Nodup) (hrules : ∀ rule ∈ rules, rule.1 ∈ known)
    (hsource : distinct known source = true) (hwritten : distinct known written = true)
    (hothers : others known written = others known source)
    (hfields : ∀ name ∈ known,
      (written.lookup name).map normalize = rules.at name ((source.lookup name).map normalize)) :
    (Json.obj written).normalize = onRecord rules (Json.obj source).normalize := by
  rw [normalize_obj, normalize_obj, onRecord, onFields_obj]
  congr 2
  apply Std.ExtTreeMap.ext_getElem?
  intro name
  rw [getElem?_alterAll hnodup, getElem?_normalizeFields, getElem?_normalizeFields]
  by_cases hname : name ∈ known
  · rw [lookup_reverse_of_distinct hwritten hname, lookup_reverse_of_distinct hsource hname]
    exact hfields name hname
  · have hkept : rules.at name = id := by
      refine Rules.at_of_forall_ne fun rule hrule heq => hname ?_
      rw [← heq]
      exact hrules rule hrule
    rw [hkept, ← getElem?_others hname, ← getElem?_others hname, hothers, id]

end Records

end Lineage.Json
