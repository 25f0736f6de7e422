import Lineage.Json.Decode
import Lineage.Proofs.Json.Value
import Mathlib.Data.List.Nodup

/-!
# Values that are written as they were read

`Json.Codec` says of a reader and a writer that what is written for a value that was read is read as that
value again, and nests no deeper than it did. This module proves it for the readers of single values, lists
and maps, and prepares it for records.

Main results:
* `Json.any_codec`, `Json.choice_codec`, `Json.listOf_codec`, `Json.mapOf_codec`
* `Json.Codec.required_eq`, `Json.Codec.optional_eq` and `Json.Codec.defaulted_eq`: each field of a record is
  read again as what it was read as.
* `Json.Codec.of_written`: a record that is written with its known fields first repeats no name, its other
  fields are found again, and it nests no deeper than it did.
-/

namespace Lineage.Json

/-- What the writer makes of a value that was read is read as that value again. The focus loses nothing of
it, and it nests no deeper than what the value was read from, or than `levels`. It is null only for null. -/
structure Codec {α : Type} (read : Json → Option α) (write : α → Json) (focus : Focus) (levels : Nat) : Prop where
  reread {j : Json} {a : α} : read j = some a → read (write a) = some a
  fits {p : Number → Prop} {depth : Nat} {j : Json} {a : α} : read j = some a → Fits p .whole depth j →
    levels ≤ depth → Fits p focus depth (write a)
  null {j : Json} {a : α} : read j = some a → write a = .null → j = .null

/-! ## Single values -/

theorem text_codec : Codec text .str .whole 0 where
  reread _ := rfl
  fits _ _ _ := .str nofun
  null _ := nofun

theorem flag_codec : Codec flag .bool .whole 0 where
  reread _ := rfl
  fits _ _ _ := .bool nofun
  null _ := nofun

theorem any_codec : Codec any id .whole 0 where
  reread h := by
    obtain rfl := Option.some.inj h
    rw [id, any, normalize_normalize]
  fits h hfits _ := by
    obtain rfl := Option.some.inj h
    exact hfits.normalize
  null h hnull := by
    obtain rfl := Option.some.inj h
    exact normalize_eq_null hnull

/-- One of several names, if every name is the one it is found by. -/
theorem choice_codec {α : Type} {ofName? : String → Option α} {name : α → String}
    (h : ∀ a, ofName? (name a) = some a) : Codec (choice ofName?) (fun a => .str (name a)) .whole 0 where
  reread _ := h _
  fits _ _ _ := .str nofun
  null _ := nofun

/-! ## Lists and maps -/

section Lists

variable {α β : Type} {f : α → Option β}

theorem exists_of_mem_mapM {l : List α} {bs : List β} (h : l.mapM f = some bs) :
    ∀ b ∈ bs, ∃ a ∈ l, f a = some b := by
  induction l generalizing bs with
  | nil =>
    obtain rfl := Option.some.inj h
    exact nofun
  | cons a l ih =>
    rw [List.mapM_cons] at h
    obtain ⟨b, hb, h⟩ := Option.bind_eq_some_iff.1 h
    obtain ⟨others, hothers, h⟩ := Option.bind_eq_some_iff.1 h
    obtain rfl := Option.some.inj h
    refine List.forall_mem_cons.2 ⟨⟨a, List.mem_cons_self, hb⟩, fun b' hb' => ?_⟩
    obtain ⟨a', ha', hfa'⟩ := ih hothers b' hb'
    exact ⟨a', List.mem_cons_of_mem _ ha', hfa'⟩

theorem mapM_eq_some {g : α → β} {l : List α} (h : ∀ a ∈ l, f a = some (g a)) : l.mapM f = some (l.map g) := by
  induction l with
  | nil => rfl
  | cons a l ih =>
    obtain ⟨ha, hl⟩ := List.forall_mem_cons.1 h
    rw [List.mapM_cons, ha, ih hl]
    rfl

theorem mapM_map_eq_some {g : β → α} {bs : List β} (h : ∀ b ∈ bs, f (g b) = some b) :
    (bs.map g).mapM f = some bs := by
  have hread : bs.mapM (f ∘ g) = some (bs.map id) := mapM_eq_some h
  rw [List.mapM_map, hread, List.map_id]

end Lists

section Containers

variable {α : Type} {read : Json → Option α} {write : α → Json} {focus inner : Focus} {levels : Nat}

theorem listOf_codec (c : Codec read write .whole levels) :
    Codec (listOf read) (fun as => .arr (as.map write)) .whole (levels + 1) where
  reread {j as} h := by
    cases j with
    | arr items =>
      refine mapM_map_eq_some fun a ha => ?_
      obtain ⟨item, -, hitem⟩ := exists_of_mem_mapM h a ha
      exact c.reread hitem
    | _ => cases h
  fits {p depth j as} h hfits hle := by
    cases hfits with
    | @arr _ depth items _ hitems =>
      refine .arr_of_mem nofun (fun _ => rfl) fun item hitem => ?_
      obtain ⟨a, ha, rfl⟩ := List.mem_map.1 hitem
      obtain ⟨read, hmem, hread⟩ := exists_of_mem_mapM h a ha
      obtain ⟨place, hplace⟩ := List.mem_iff_getElem?.1 hmem
      exact c.fits hread (hitems place read hplace) (by omega)
    | _ => cases h
  null _ := nofun

/-- The values of a map were each read from a field. -/
theorem exists_of_mem_mapOf {j : Json} {m : Std.ExtTreeMap String α compare} (h : mapOf read j = some m) :
    ∃ fields, j = .obj fields ∧
      ∀ entry ∈ m.toList, ∃ value, (entry.1, value) ∈ fields ∧ read value = some entry.2 := by
  cases j with
  | obj fields =>
    refine ⟨fields, rfl, fun entry hentry => ?_⟩
    obtain ⟨entries, hentries, rfl⟩ := Option.map_eq_some_iff.1 h
    obtain ⟨⟨name, value⟩, hmem, hread⟩ := exists_of_mem_mapM hentries entry (mem_of_mem_ofList hentry)
    obtain ⟨a, ha, rfl⟩ := Option.map_eq_some_iff.1 hread
    exact ⟨value, hmem, ha⟩
  | _ => cases h

theorem mapOf_codec (c : Codec read write inner levels) (kept : focus ≠ .nothing)
    (hfield : ∀ name, focus.field name = inner) : Codec (mapOf read) (ofMap write) focus (levels + 1) where
  reread {j m} h := by
    obtain ⟨fields, rfl, hread⟩ := exists_of_mem_mapOf h
    have hentries : (m.toList.map fun (name, a) => (name, write a)).mapM
        (fun field => (read field.2).map (field.1, ·)) = some m.toList := by
      refine mapM_map_eq_some fun (name, a) hentry => ?_
      obtain ⟨value, -, hvalue⟩ := hread (name, a) hentry
      simp only [c.reread hvalue, Option.map_some]
    rw [ofMap, mapOf, hentries, Option.map_some, ofList_toList]
  fits {p depth j m} h hfits hle := by
    obtain ⟨fields, rfl, hread⟩ := exists_of_mem_mapOf h
    cases hfits with
    | @obj _ depth _ _ hfields =>
      refine .obj kept fun name value hmem => ?_
      obtain ⟨⟨_, a⟩, hentry, heq⟩ := List.mem_map.1 hmem
      cases heq
      obtain ⟨value, hvalue, ha⟩ := hread _ hentry
      rw [hfield]
      exact c.fits ha (hfields _ _ hvalue) (by omega)
  null _ := nofun

end Containers

/-! ## Fields of other names -/

section Others

variable {known : List String} {fields : List (String × Json)}

theorem mem_others {field : String × Json} (h : field ∈ (others known fields).toList) :
    field.1 ∉ known ∧ ∃ value, (field.1, value) ∈ fields ∧ field.2 = value.normalize := by
  obtain ⟨⟨name, value⟩, hmem, rfl⟩ := List.mem_map.1 (mem_of_mem_ofList h)
  obtain ⟨hin, hunknown⟩ := List.mem_filter.1 hmem
  refine ⟨?_, value, hin, rfl⟩
  simpa using hunknown

theorem lookup_others {name : String} (h : name ∈ known) : (others known fields).toList.lookup name = none := by
  rw [List.lookup_eq_none_iff]
  intro field hfield
  have hne : name ≠ field.1 := by
    rintro rfl
    exact (mem_others hfield).1 h
  simpa using hne

end Others

/-! ## Fields -/

/-- With the focus, the value fits as many levels as all the fields do, and needs no more than `levels`. -/
def Bounded (fields : List (String × Json)) (levels : Nat) (focus : Focus) (v : Json) : Prop :=
  ∀ p depth, levels ≤ depth → (∀ name value, (name, value) ∈ fields → Fits p .whole depth value) →
    Fits p focus depth v

/-- The value was read from one of the fields, or from what needs no more than `levels`. -/
def ReadFrom {α : Type} (read : Json → Option α) (levels : Nat) (fields : List (String × Json)) (a : α) : Prop :=
  ∃ j, read j = some a ∧ Bounded fields levels .whole j

section ReadFields

variable {α : Type} {read : Json → Option α} {write : α → Json} {focus : Focus} {levels most : Nat}
variable {name : String} {source written : List (String × Json)}

theorem bounded_of_mem {value : Json} (h : (name, value) ∈ source) : Bounded source levels .whole value :=
  fun _ _ _ hsource => hsource name value h

theorem mem_of_lookup {value : Json} (h : source.lookup name = some value) : (name, value) ∈ source := by
  obtain ⟨before, after, rfl, -⟩ := List.lookup_eq_some_iff.1 h
  simp

theorem readFrom_required {a : α} (h : required name read source = some a) : ReadFrom read levels source a := by
  obtain ⟨value, hvalue, hread⟩ := Option.bind_eq_some_iff.1 h
  exact ⟨value, hread, bounded_of_mem (mem_of_lookup hvalue)⟩

theorem orNull_of_ne {value : Json} (h : value ≠ .null) : orNull read value = (read value).map some := by
  unfold orNull
  split
  · contradiction
  · rfl

/-- An optional value that is there was not read from null. -/
theorem exists_of_optional {a : α} (h : optional name read source = some (some a)) :
    ∃ j ≠ .null, read j = some a ∧ (name, j) ∈ source := by
  unfold optional at h
  split at h
  · cases h
  · rename_i value hvalue
    have hnull : value ≠ .null := by
      rintro rfl
      cases h
    rw [orNull_of_ne hnull] at h
    obtain ⟨a, ha, heq⟩ := Option.map_eq_some_iff.1 h
    cases heq
    exact ⟨value, hnull, ha, mem_of_lookup hvalue⟩

/-- A default has to be what is read from an empty object. -/
theorem readFrom_defaulted {fallback a : α} (hempty : read (.obj []) = some fallback)
    (h : defaulted name read fallback source = some a) : ReadFrom read (levels + 1) source a := by
  unfold defaulted at h
  split at h
  · cases h
    refine ⟨.obj [], hempty, fun p depth hle _ => ?_⟩
    obtain ⟨depth, rfl⟩ : ∃ less, depth = less + 1 := ⟨depth - 1, by omega⟩
    exact .obj nofun nofun
  · rename_i value hvalue
    exact ⟨value, h, bounded_of_mem (mem_of_lookup hvalue)⟩

namespace Codec

theorem reread_of_readFrom (c : Codec read write focus levels) {a : α} (h : ReadFrom read levels source a) :
    read (write a) = some a := by
  obtain ⟨j, hj, -⟩ := h
  exact c.reread hj

theorem bounded (c : Codec read write focus levels) {a : α} (h : ReadFrom read levels source a)
    (hle : levels ≤ most) : Bounded source most focus (write a) := by
  intro p depth hmost hsource
  obtain ⟨j, hj, hbounded⟩ := h
  exact c.fits hj (hbounded p depth (hle.trans hmost) hsource) (hle.trans hmost)

theorem required_eq (c : Codec read write focus levels) {a : α} (h : required name read source = some a)
    (hwritten : written.lookup name = some (write a)) : required name read written = some a := by
  rw [required, hwritten, Option.bind_some, c.reread_of_readFrom (readFrom_required h)]

theorem defaulted_eq (c : Codec read write focus levels) {fallback a : α} (h : ReadFrom read levels source a)
    (hwritten : written.lookup name = some (write a)) : defaulted name read fallback written = some a := by
  rw [defaulted, hwritten]
  exact c.reread_of_readFrom h

theorem optional_eq (c : Codec read write focus levels) {a : Option α}
    (h : optional name read source = some a) (hwritten : written.lookup name = a.map write) :
    optional name read written = some a := by
  cases a with
  | none => rw [optional, hwritten, Option.map_none]
  | some a =>
    obtain ⟨j, hj, hread, -⟩ := exists_of_optional h
    have hnull : write a ≠ .null := fun hnull => hj (c.null hread hnull)
    rw [optional, hwritten, Option.map_some]
    simp only [orNull_of_ne hnull, c.reread hread, Option.map_some]

end Codec

theorem lookup_optionalField (known : String) (a : Option α) :
    (optionalField known write a).lookup name = if name = known then a.map write else none := by
  cases a with
  | none => simp [optionalField]
  | some a =>
    by_cases hname : name = known
    · simp [optionalField, hname]
    · have hbeq : (name == known) = false := beq_eq_false_iff_ne.2 hname
      simp [optionalField, List.lookup_cons, hname, hbeq]

end ReadFields

/-! ## Fields that are known -/

/-- The fields are known ones, in the order of their names and each at most once. -/
def Among (known : List String) (fields : List (String × Json)) : Prop := (fields.map (·.1)).Sublist known

namespace Among

variable {known : List String} {fields : List (String × Json)} {name : String}

theorem nil : Among [] [] := List.Sublist.slnil

theorem cons {value : Json} (h : Among known fields) : Among (name :: known) ((name, value) :: fields) :=
  List.Sublist.cons_cons name h

theorem optionalField {α : Type} {write : α → Json} {a : Option α} (h : Among known fields) :
    Among (name :: known) (Json.optionalField name write a ++ fields) := by
  cases a with
  | none => exact List.Sublist.cons name h
  | some a => exact h.cons

theorem length_filter_le (h : Among known fields) (hnodup : known.Nodup) (name : String) :
    (fields.filter (·.1 == name)).length ≤ 1 := by
  have hcount : (fields.filter (·.1 == name)).length = (fields.map (·.1)).count name := by
    rw [List.count, List.countP_map, List.countP_eq_length_filter]
    rfl
  rw [hcount]
  exact (h.count_le name).trans (List.nodup_iff_count_le_one.1 hnodup name)

theorem distinct (h : Among known fields) (hnodup : known.Nodup) : Json.distinct known fields = true := by
  rw [Json.distinct, List.all_eq_true]
  exact fun name _ => decide_eq_true (h.length_filter_le hnodup name)

theorem filter_unknown (h : Among known fields) : fields.filter (fun field => !known.contains field.1) = [] := by
  rw [List.filter_eq_nil_iff]
  intro field hfield
  have hmem : field.1 ∈ known := h.subset (List.mem_map_of_mem hfield)
  simp [hmem]

theorem others_eq (h : Among known fields) : Json.others known fields = ∅ := by
  rw [Json.others, h.filter_unknown]
  rfl

end Among

/-! ## Records -/

/-- The fields are known ones, in the order of their names and each at most once, and then all others. What
stands in a known field is bounded by the fields that the record was read from. -/
def Written (focus : Focus) (levels : Nat) (source : List (String × Json)) (extra : Fields)
    (known : List String) (fields : List (String × Json)) : Prop :=
  ∃ head, fields = head ++ extra.toList ∧ (head.map (·.1)).Sublist known ∧
    ∀ field ∈ head, Bounded source levels (focus.field field.1) field.2

namespace Written

variable {focus : Focus} {levels most : Nat} {extra : Fields} {known : List String}
variable {source fields : List (String × Json)}

section Parts

variable {α : Type} {read : Json → Option α} {write : α → Json} {name : String}

theorem others_only : Written focus most source extra [] extra.toList :=
  ⟨[], rfl, List.Sublist.slnil, nofun⟩

/-- A field that is always written. -/
theorem field (c : Codec read write (focus.field name) levels) {a : α} (h : ReadFrom read levels source a)
    (hle : levels ≤ most) (hrest : Written focus most source extra known fields) :
    Written focus most source extra (name :: known) ((name, write a) :: fields) := by
  obtain ⟨head, rfl, hnames, hbounded⟩ := hrest
  exact ⟨(name, write a) :: head, rfl, hnames.cons_cons name,
    List.forall_mem_cons.2 ⟨c.bounded h hle, hbounded⟩⟩

/-- A field that is written for a value that is there. -/
theorem optionalField (c : Codec read write (focus.field name) levels) {a : Option α}
    (h : optional name read source = some a) (hle : levels ≤ most)
    (hrest : Written focus most source extra known fields) :
    Written focus most source extra (name :: known) (Json.optionalField name write a ++ fields) := by
  cases a with
  | none =>
    obtain ⟨head, rfl, hnames, hbounded⟩ := hrest
    exact ⟨head, rfl, hnames.cons name, hbounded⟩
  | some a =>
    obtain ⟨j, -, hread, hmem⟩ := exists_of_optional h
    exact hrest.field c ⟨j, hread, bounded_of_mem hmem⟩ hle

end Parts

/-- Known fields are found once. -/
theorem distinct (h : Written focus most source (Json.others known source) known fields)
    (hnodup : known.Nodup) : Json.distinct known fields = true := by
  obtain ⟨head, rfl, hnames, -⟩ := h
  rw [Json.distinct, List.all_eq_true]
  intro name hname
  have hothers : (Json.others known source).toList.filter (·.1 == name) = [] := by
    rw [List.filter_eq_nil_iff]
    intro field hfield heq
    exact (mem_others hfield).1 (by rwa [beq_iff_eq.1 heq])
  rw [List.filter_append, hothers, List.append_nil, decide_eq_true_iff]
  exact Among.length_filter_le hnames hnodup name

/-- Other fields are found as they were written. -/
theorem others_eq (h : Written focus most source (Json.others known source) known fields) :
    Json.others known fields = Json.others known source := by
  obtain ⟨head, rfl, hnames, -⟩ := h
  have hkept : (Json.others known source).toList.filter (fun field => !known.contains field.1) =
      (Json.others known source).toList := by
    rw [List.filter_eq_self]
    intro field hfield
    simp [(mem_others hfield).1]
  rw [Json.others, List.filter_append, Among.filter_unknown hnames, List.nil_append, hkept]
  refine Eq.trans (congrArg (Std.ExtTreeMap.ofList · compare) ?_) (ofList_toList _)
  refine (List.map_congr_left fun field hfield => ?_).trans (List.map_id _)
  obtain ⟨-, value, -, hvalue⟩ := mem_others hfield
  have hnormal : field.2.normalize = field.2 := by rw [hvalue, normalize_normalize]
  exact Prod.ext rfl hnormal

/-- All fields together nest no deeper than the ones that were read. -/
theorem fits (h : Written focus most source (Json.others known source) known fields) (kept : focus ≠ .nothing)
    (hfocus : ∀ name ∉ known, focus.field name = .whole) {p : Number → Prop} {depth : Nat} (hle : most ≤ depth)
    (hsource : ∀ name value, (name, value) ∈ source → Fits p .whole depth value) :
    Fits p focus (depth + 1) (.obj fields) := by
  obtain ⟨head, rfl, -, hbounded⟩ := h
  refine .obj kept fun name value hmem => ?_
  rcases List.mem_append.1 hmem with hhead | hother
  · exact hbounded _ hhead p depth hle hsource
  · obtain ⟨hunknown, raw, hraw, hvalue⟩ := mem_others hother
    simp only at hunknown hraw hvalue
    rw [hfocus _ hunknown, hvalue]
    exact (hsource _ _ hraw).normalize

end Written

/-- A focus that is named for known fields keeps all of every other one. -/
theorem Focus.field_of_unknown {kept : List (String × Focus)} {known : List String}
    (h : ∀ field ∈ kept, field.1 ∈ known) :
    ∀ name ∉ known, Focus.field name (.record kept .whole) = .whole := by
  intro name hname
  have hlookup : kept.lookup name = none := by
    rw [List.lookup_eq_none_iff]
    intro field hfield
    have hne : name ≠ field.1 := by
      rintro rfl
      exact hname (h field hfield)
    simpa using hne
  rw [Focus.field, hlookup, Option.getD_none]

/-- A record is written as it was read if its fields are. -/
theorem Codec.of_written {α : Type} {read : Json → Option α} {write : α → Json} {focus : Focus} {levels : Nat}
    (known : List String) (kept : focus ≠ .nothing) (hfocus : ∀ name ∉ known, focus.field name = .whole)
    (h : ∀ {j a}, read j = some a → ∃ source fields, j = .obj source ∧ write a = .obj fields ∧
      Written focus levels source (others known source) known fields ∧ read (.obj fields) = some a) :
    Codec read write focus (levels + 1) where
  reread {j a} hread := by
    obtain ⟨source, fields, -, hwrite, -, hreread⟩ := h hread
    rw [hwrite, hreread]
  fits {p depth j a} hread hfits hle := by
    obtain ⟨source, fields, rfl, hwrite, hwritten, -⟩ := h hread
    cases hfits with
    | @obj _ depth _ _ hsource =>
      rw [hwrite]
      exact hwritten.fits kept hfocus (by omega) hsource
  null {j a} hread hnull := by
    obtain ⟨source, fields, -, hwrite, -, -⟩ := h hread
    rw [hwrite] at hnull
    cases hnull

end Lineage.Json
