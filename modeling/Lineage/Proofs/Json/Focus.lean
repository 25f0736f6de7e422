import Lineage.Proofs.Json.Codec
import Lineage.Proofs.Json.Skip

/-!
# What a focus keeps

Main result:
* `Json.parseFor?_eq_prune`: with a focus, a text is read as what the focus keeps of its value.

`Json.Focus.Suffices` says of a reader of values that it does not look at what a focus leaves out. A record that
drops some fields (`Json.Focus.only`) and one that only passes a focus on to its fields
(`Json.Focus.KeepsFields`) are treated apart, since only the second has to keep every name.
-/

namespace Lineage.Json

mutual

/-- What the focus keeps of a value. -/
def Focus.prune : Focus → Json → Json
  | .nothing, _ => .null
  | focus, .arr items => .arr (focus.pruneItems 0 items)
  | focus, .obj fields => .obj (focus.pruneFields fields)
  | _, value => value

/-- What is kept of items, the first of which has this place. -/
def Focus.pruneItems : Focus → Nat → List Json → List Json
  | _, _, [] => []
  | focus, place, item :: items => (focus.item place).prune item :: focus.pruneItems (place + 1) items

def Focus.pruneFields : Focus → List (String × Json) → List (String × Json)
  | _, [] => []
  | focus, (name, value) :: fields =>
    focus.keep name ((focus.field name).prune value) ++ focus.pruneFields fields

end

namespace Focus

variable {focus : Focus}

theorem prune_nothing (v : Json) : nothing.prune v = .null := by
  cases v <;> rfl

/-- Values without parts stay as they are. -/
theorem prune_kept (hf : focus ≠ .nothing) (v : Json) :
    focus.prune v = match v with
      | .arr items => .arr (focus.pruneItems 0 items)
      | .obj fields => .obj (focus.pruneFields fields)
      | v => v := by
  cases focus with
  | nothing => contradiction
  | _ => cases v <;> rfl

theorem prune_arr (hf : focus ≠ .nothing) (items : List Json) :
    focus.prune (.arr items) = .arr (focus.pruneItems 0 items) :=
  prune_kept hf (.arr items)

theorem prune_obj (hf : focus ≠ .nothing) (fields : List (String × Json)) :
    focus.prune (.obj fields) = .obj (focus.pruneFields fields) :=
  prune_kept hf (.obj fields)

end Focus

/-! ## Reading with a focus -/

/-- At this fuel, a focus keeps of what is read what it should. -/
structure ReadPrunes (fuel : Nat) : Prop where
  value {depth : Nat} {cs rest : List Char} {v : Json} (focus : Focus) :
    value? fuel depth .whole cs = some (v, rest) → value? fuel depth focus cs = some (focus.prune v, rest)
  items {depth start : Nat} {cs rest : List Char} {items : List Json} (focus : Focus) :
    items? fuel depth .whole start cs = some (items, rest) →
      items? fuel depth focus start cs = some (focus.pruneItems start items, rest)
  fields {depth : Nat} {cs rest : List Char} {fields : List (String × Json)} (focus : Focus) :
    fields? fuel depth .whole cs = some (fields, rest) →
      fields? fuel depth focus cs = some (focus.pruneFields fields, rest)

namespace ReadPrunes

variable {fuel depth : Nat} {cs rest : List Char}

theorem value_succ (ih : ReadPrunes fuel) {v : Json} (focus : Focus)
    (h : value? (fuel + 1) depth .whole cs = some (v, rest)) :
    value? (fuel + 1) depth focus cs = some (focus.prune v, rest) := by
  by_cases hf : focus = .nothing
  · subst hf
    rw [value?, skipValue?_of_value? h, Focus.prune_nothing, Option.map_some]
  -- Both readers look at the same text and so take the same branch.
  rw [value?.eq_3 depth .whole cs fuel Focus.whole_kept] at h
  rw [value?.eq_3 depth focus cs fuel hf]
  split at h
  · cases h
    rw [Focus.prune_kept hf]
  · cases h
    rw [Focus.prune_kept hf]
  · cases h
    rw [Focus.prune_kept hf]
  · obtain ⟨⟨s, _⟩, htext, hpair⟩ := Option.map_eq_some_iff.1 h
    cases hpair
    simp only [htext, Option.map_some, Focus.prune_kept hf]
  · simp only
    split at h
    · cases h
    split at h
    · cases h
      rw [Focus.prune_arr hf]
      rfl
    · obtain ⟨⟨items, _⟩, hitems, hpair⟩ := Option.map_eq_some_iff.1 h
      cases hpair
      rw [ih.items focus hitems, Option.map_some, Focus.prune_arr hf]
  · simp only
    split at h
    · cases h
    split at h
    · cases h
      rw [Focus.prune_obj hf]
      rfl
    · obtain ⟨⟨fields, _⟩, hfields, hpair⟩ := Option.map_eq_some_iff.1 h
      cases hpair
      rw [ih.fields focus hfields, Option.map_some, Focus.prune_obj hf]
  · obtain ⟨⟨n, _⟩, hnumber, hpair⟩ := Option.map_eq_some_iff.1 h
    cases hpair
    rw [hnumber, Option.map_some, Focus.prune_kept hf]

theorem items_succ (ih : ReadPrunes fuel) {start : Nat} {items : List Json} (focus : Focus)
    (h : items? (fuel + 1) depth .whole start cs = some (items, rest)) :
    items? (fuel + 1) depth focus start cs = some (focus.pruneItems start items, rest) := by
  rw [items?] at h
  obtain ⟨⟨item, afterItem⟩, hitem, h⟩ := Option.bind_eq_some_iff.1 h
  have hpruned := ih.value (focus.item start) hitem
  simp only at h
  split at h
  · rename_i more hcomma
    obtain ⟨⟨others, _⟩, hothers, h⟩ := Option.bind_eq_some_iff.1 h
    cases h
    exact items?_more hpruned hcomma (ih.items focus hothers)
  · rename_i hclose
    cases h
    exact items?_last hpruned hclose
  · cases h

theorem fields_succ (ih : ReadPrunes fuel) {fields : List (String × Json)} (focus : Focus)
    (h : fields? (fuel + 1) depth .whole cs = some (fields, rest)) :
    fields? (fuel + 1) depth focus cs = some (focus.pruneFields fields, rest) := by
  rw [fields?] at h ⊢
  split at h
  · rename_i hquote
    obtain ⟨⟨name, afterName⟩, hname, h⟩ := Option.bind_eq_some_iff.1 h
    simp only at h
    split at h
    · rename_i beforeValue hcolon
      obtain ⟨⟨value, afterValue⟩, hvalue, h⟩ := Option.bind_eq_some_iff.1 h
      have hpruned := ih.value (focus.field name) hvalue
      simp only at h
      split at h
      · rename_i more hcomma
        obtain ⟨⟨others, _⟩, hothers, h⟩ := Option.bind_eq_some_iff.1 h
        cases h
        simp only [hname, hcolon, hpruned, hcomma, ih.fields focus hothers, Option.bind_eq_bind,
          Option.bind_some, Option.pure_def]
        rfl
      · rename_i hclose
        cases h
        simp only [hname, hcolon, hpruned, hclose, Option.bind_eq_bind, Option.bind_some, Option.pure_def]
        have hwhole : Focus.field name .whole ≠ .nothing := Focus.whole_kept
        rw [keep_eq hwhole, Focus.pruneFields, Focus.pruneFields, List.append_nil]
      · cases h
    · cases h
  · cases h

end ReadPrunes

theorem readPrunes (fuel : Nat) : ReadPrunes fuel := by
  induction fuel with
  | zero =>
    constructor
    · intro _ _ _ _ _ h
      simp [value?] at h
    · intro _ _ _ _ _ _ h
      simp [items?] at h
    · intro _ _ _ _ _ h
      simp [fields?] at h
  | succ fuel ih => exact ⟨ih.value_succ, ih.items_succ, ih.fields_succ⟩

theorem parseFor?_eq_prune {s : String} {v : Json} (h : parse? s = some v) (focus : Focus) :
    parseFor? focus s = some (focus.prune v) := by
  unfold parse? parseFor? at h
  unfold parseFor?
  simp only at h ⊢
  split at h
  · rename_i value rest hread
    rw [(readPrunes _).value focus hread]
    dsimp only
    split at h
    · rename_i hend
      cases h
      rw [if_pos hend]
    · cases h
  · cases h

/-! ## Readers that need no more -/

/-- The reader does not look at what the focus leaves out. -/
def Focus.Suffices {α : Type} (focus : Focus) (read : Json → Option α) : Prop :=
  ∀ j, read (focus.prune j) = read j

namespace Focus

theorem pruneItems_eq {focus inner : Focus} (h : ∀ place, focus.item place = inner) (items : List Json)
    (place : Nat) : focus.pruneItems place items = items.map inner.prune := by
  induction items generalizing place with
  | nil => rfl
  | cons item items ih => rw [pruneItems, h, ih, List.map_cons]

theorem pruneFields_eq {focus : Focus} {fields : List (String × Json)}
    (h : ∀ field ∈ fields, focus.field field.1 ≠ .nothing) :
    focus.pruneFields fields = fields.map fun field => (field.1, (focus.field field.1).prune field.2) := by
  induction fields with
  | nil => rfl
  | cons field fields ih =>
    obtain ⟨hfield, hfields⟩ := List.forall_mem_cons.1 h
    rw [pruneFields, keep_eq hfield, ih hfields]
    rfl

theorem prune_whole (v : Json) : whole.prune v = v := by
  induction v using induct with
  | null | bool | num | str => rfl
  | arr items ih =>
    have hitems : whole.pruneItems 0 items = items.map whole.prune := pruneItems_eq (fun _ => rfl) items 0
    rw [prune_arr whole_kept, hitems]
    congr 1
    exact (List.map_congr_left ih).trans (List.map_id _)
  | obj fields ih =>
    have hfields : ∀ field ∈ fields, whole.field field.1 ≠ nothing := fun _ _ => whole_kept
    rw [prune_obj whole_kept, pruneFields_eq hfields]
    congr 1
    refine (List.map_congr_left fun field hfield => ?_).trans (List.map_id _)
    exact Prod.ext rfl (ih field hfield)

theorem whole_suffices {α : Type} (read : Json → Option α) : whole.Suffices read := by
  intro j
  rw [prune_whole]

/-! ### Records of which only some fields are kept -/

section Only

variable {names : List String}

theorem only_kept : only names ≠ nothing := record_kept _ _

theorem item_only (place : Nat) : (only names).item place = .whole := by
  rw [only, item, List.getElem?_map, Option.map_map]
  cases names[place]? <;> rfl

theorem field_only (name : String) : (only names).field name = if name ∈ names then .whole else .nothing := by
  rw [only, field]
  induction names with
  | nil => rfl
  | cons known names ih =>
    by_cases hname : name = known
    · simp [hname]
    · have hbeq : (name == known) = false := beq_eq_false_iff_ne.2 hname
      rw [List.map_cons, List.lookup_cons, hbeq, ih]
      simp [hname]

theorem prune_only_arr (items : List Json) : (only names).prune (.arr items) = .arr items := by
  rw [prune_arr only_kept, pruneItems_eq item_only]
  congr 1
  exact (List.map_congr_left fun item _ => prune_whole item).trans (List.map_id _)

theorem prune_only_obj (fields : List (String × Json)) :
    (only names).prune (.obj fields) = .obj (fields.filter fun field => names.contains field.1) := by
  rw [prune_obj only_kept]
  congr 1
  induction fields with
  | nil => rfl
  | cons field fields ih =>
    obtain ⟨name, value⟩ := field
    rw [pruneFields, ih, keep, field_only]
    by_cases hname : name ∈ names
    · simp [hname, prune_whole]
    · simp [hname]

theorem distinct_filter (fields : List (String × Json)) :
    distinct names (fields.filter fun field => names.contains field.1) = distinct names fields := by
  unfold distinct
  rw [Bool.eq_iff_iff, List.all_eq_true, List.all_eq_true]
  refine forall₂_congr fun name hname => ?_
  have hfound : ∀ field ∈ fields, (field.1 == name && names.contains field.1) = (field.1 == name) := by
    intro field _
    by_cases heq : field.1 = name
    · simp [heq, hname]
    · simp [heq]
  rw [List.filter_filter, List.filter_congr hfound]

end Only

end Focus

/-! ### Records of which every field is kept -/

section Records

variable {α : Type} {read : Json → Option α} {focus : Focus} {name : String} {known : List String}
variable {fields : List (String × Json)}

/-- The focus leaves no field out altogether. -/
def Focus.KeepsFields (focus : Focus) : Prop := ∀ name, focus.field name ≠ .nothing

theorem Focus.keepsFields_record {kept : List (String × Focus)} (h : ∀ field ∈ kept, field.2 ≠ .nothing) :
    (record kept .whole).KeepsFields := by
  intro name
  rw [field]
  cases hlookup : kept.lookup name with
  | none => exact whole_kept
  | some inner =>
    obtain ⟨before, after, rfl, -⟩ := List.lookup_eq_some_iff.1 hlookup
    exact h (name, inner) (by simp)

namespace Focus.KeepsFields

theorem pruneFields_eq (hf : focus.KeepsFields) (fields : List (String × Json)) :
    focus.pruneFields fields = fields.map fun field => (field.1, (focus.field field.1).prune field.2) :=
  Focus.pruneFields_eq fun _ _ => hf _

theorem lookup_eq (hf : focus.KeepsFields) :
    (focus.pruneFields fields).lookup name = (fields.lookup name).map (focus.field name).prune := by
  rw [hf.pruneFields_eq]
  exact lookup_map_value (fun name => (focus.field name).prune) fields

theorem distinct_eq (hf : focus.KeepsFields) :
    distinct known (focus.pruneFields fields) = distinct known fields := by
  unfold distinct
  rw [hf.pruneFields_eq]
  congr 1
  funext name
  rw [List.filter_map, List.length_map]
  rfl

theorem others_eq (hf : focus.KeepsFields) (hothers : ∀ name ∉ known, focus.field name = .whole) :
    others known (focus.pruneFields fields) = others known fields := by
  unfold others
  rw [hf.pruneFields_eq, List.filter_map, List.map_map]
  congr 1
  refine List.map_congr_left fun field hfield => ?_
  have hunknown : field.1 ∉ known := by
    simpa using (List.mem_filter.1 hfield).2
  simp [hothers _ hunknown, prune_whole]

theorem required_eq (hf : focus.KeepsFields) (name : String) (h : (focus.field name).Suffices read) :
    required name read (focus.pruneFields fields) = required name read fields := by
  unfold required
  rw [hf.lookup_eq, Option.bind_map]
  congr 1
  funext value
  exact h value

theorem optional_eq (hf : focus.KeepsFields) (name : String) (h : focus.field name = .whole) :
    optional name read (focus.pruneFields fields) = optional name read fields := by
  unfold optional
  have hsame : (focus.pruneFields fields).lookup name = fields.lookup name := by
    rw [hf.lookup_eq, h]
    cases fields.lookup name with
    | none => rfl
    | some value => rw [Option.map_some, prune_whole]
  rw [hsame]

theorem defaulted_eq (hf : focus.KeepsFields) (name : String) (h : (focus.field name).Suffices read) {fallback : α} :
    defaulted name read fallback (focus.pruneFields fields) = defaulted name read fallback fields := by
  unfold defaulted
  rw [hf.lookup_eq]
  cases fields.lookup name with
  | none => rfl
  | some value => exact h value

end Focus.KeepsFields

theorem Focus.Suffices.mapOf {inner : Focus} (h : inner.Suffices read) (hf : inner ≠ .nothing) :
    (each inner).Suffices (Json.mapOf read) := by
  intro j
  cases j with
  | obj fields =>
    have hkept : (each inner).KeepsFields := fun _ => hf
    rw [prune_obj (each_kept inner), hkept.pruneFields_eq]
    unfold Json.mapOf
    dsimp only
    congr 1
    rw [List.mapM_map]
    congr 1
    funext field
    have hread : read (((each inner).field field.1).prune field.2) = read field.2 := h field.2
    rw [Function.comp_apply, hread]
  | _ => rfl

end Records

end Lineage.Json
