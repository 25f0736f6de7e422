import Lineage.Proofs.Json.Focus
import Lineage.Proofs.Json.ReadBack
import Lineage.Proofs.Json.Reader

/-!
# How deep a value nests

Main results:
* `Json.fits_whole_iff`: nothing of a value is lost if it nests no deeper than the reader allows and its numbers can
  be read.
* `Json.eq_prune_of_parseFor?`: whatever is read from the text of a value is what the focus keeps of it.

A reader that may open more levels reads what it reads in the same way (`Json.readDeeper`), so a text that is read
at all is read as it would be without a limit.
-/

namespace Lineage.Json

mutual

/-- How many brackets stand around the innermost part of a value. -/
def nesting : Json → Nat
  | .arr items => nestingOfItems items + 1
  | .obj fields => nestingOfFields fields + 1
  | _ => 0

def nestingOfItems : List Json → Nat
  | [] => 0
  | item :: items => max item.nesting (nestingOfItems items)

def nestingOfFields : List (String × Json) → Nat
  | [] => 0
  | (_, value) :: fields => max value.nesting (nestingOfFields fields)

end

theorem nestingOfItems_le {items : List Json} {depth : Nat} :
    nestingOfItems items ≤ depth ↔ ∀ item ∈ items, item.nesting ≤ depth := by
  induction items with
  | nil => simp [nestingOfItems]
  | cons item items ih => rw [nestingOfItems, Nat.max_le, ih, List.forall_mem_cons]

theorem nestingOfFields_le {fields : List (String × Json)} {depth : Nat} :
    nestingOfFields fields ≤ depth ↔ ∀ field ∈ fields, field.2.nesting ≤ depth := by
  induction fields with
  | nil => simp [nestingOfFields]
  | cons field fields ih => rw [nestingOfFields, Nat.max_le, ih, List.forall_mem_cons]

/-! ## Values that fit -/

section Fits

variable {p : Number → Prop} {depth : Nat}

theorem fits_arr_iff {items : List Json} :
    Fits p .whole (depth + 1) (.arr items) ↔ ∀ item ∈ items, Fits p .whole depth item := by
  refine ⟨fun h item hitem => ?_, .arr_of_mem Focus.whole_kept fun _ => rfl⟩
  cases h with
  | arr _ h =>
    obtain ⟨place, hplace⟩ := List.mem_iff_getElem?.1 hitem
    exact h place item hplace

theorem fits_obj_iff {fields : List (String × Json)} :
    Fits p .whole (depth + 1) (.obj fields) ↔ ∀ field ∈ fields, Fits p .whole depth field.2 := by
  refine ⟨fun h field hfield => ?_, fun h => .obj Focus.whole_kept fun name value hfield => h (name, value) hfield⟩
  cases h with
  | obj _ h => exact h field.1 field.2 hfield

/-- What fits, in terms of the levels and the numbers of a value. -/
theorem fits_whole_iff {v : Json} :
    Fits p .whole depth v ↔ v.nesting ≤ depth ∧ ∀ n ∈ v.numbers, p n := by
  induction v using induct generalizing depth with
  | null => exact iff_of_true (.null Focus.whole_kept) ⟨Nat.zero_le _, List.forall_mem_nil _⟩
  | bool => exact iff_of_true (.bool Focus.whole_kept) ⟨Nat.zero_le _, List.forall_mem_nil _⟩
  | str => exact iff_of_true (.str Focus.whole_kept) ⟨Nat.zero_le _, List.forall_mem_nil _⟩
  | num n =>
    constructor
    · intro h
      cases h with
      | num _ hn => exact ⟨Nat.zero_le _, List.forall_mem_singleton.2 hn⟩
    · exact fun h => .num Focus.whole_kept (List.forall_mem_singleton.1 h.2)
  | arr items ih =>
    cases depth with
    | zero =>
      refine iff_of_false (fun h => ?_) fun h => absurd h.1 (Nat.not_succ_le_zero _)
      cases h
    | succ depth =>
      rw [fits_arr_iff, nesting, Nat.succ_le_succ_iff, nestingOfItems_le, numbers, numbersOfItems_eq]
      simp only [List.mem_flatMap, forall_exists_index, and_imp]
      constructor
      · exact fun h => ⟨fun item hitem => ((ih item hitem).1 (h item hitem)).1,
          fun n item hitem hn => ((ih item hitem).1 (h item hitem)).2 n hn⟩
      · exact fun h item hitem => (ih item hitem).2 ⟨h.1 item hitem, fun n hn => h.2 n item hitem hn⟩
  | obj fields ih =>
    cases depth with
    | zero =>
      refine iff_of_false (fun h => ?_) fun h => absurd h.1 (Nat.not_succ_le_zero _)
      cases h
    | succ depth =>
      rw [fits_obj_iff, nesting, Nat.succ_le_succ_iff, nestingOfFields_le, numbers, numbersOfFields_eq]
      simp only [List.mem_flatMap, forall_exists_index, and_imp]
      constructor
      · exact fun h => ⟨fun field hfield => ((ih field hfield).1 (h field hfield)).1,
          fun n field hfield hn => ((ih field hfield).1 (h field hfield)).2 n hn⟩
      · exact fun h field hfield => (ih field hfield).2 ⟨h.1 field hfield, fun n hn => h.2 n field hfield hn⟩

end Fits

/-! ## Readers that may open more levels -/

/-- At this fuel, what is read is read in the same way where one more level may be opened. -/
structure ReadDeeper (fuel : Nat) : Prop where
  value {depth : Nat} {focus : Focus} {cs : List Char} {r : Json × List Char} :
    value? fuel depth focus cs = some r → value? fuel (depth + 1) focus cs = some r
  items {depth place : Nat} {focus : Focus} {cs : List Char} {r : List Json × List Char} :
    items? fuel depth focus place cs = some r → items? fuel (depth + 1) focus place cs = some r
  fields {depth : Nat} {focus : Focus} {cs : List Char} {r : List (String × Json) × List Char} :
    fields? fuel depth focus cs = some r → fields? fuel (depth + 1) focus cs = some r

namespace ReadDeeper

variable {fuel depth : Nat} {focus : Focus} {cs : List Char}

theorem value_succ (ih : ReadDeeper fuel) {r : Json × List Char} (h : value? (fuel + 1) depth focus cs = some r) :
    value? (fuel + 1) (depth + 1) focus cs = some r := by
  by_cases hf : focus = .nothing
  · subst hf
    rw [value?] at h ⊢
    exact h
  -- Only an array or an object takes a level.
  rw [value?.eq_3 depth focus cs fuel hf] at h
  rw [value?.eq_3 (depth + 1) focus cs fuel hf]
  split at h
  · exact h
  · exact h
  · exact h
  · exact h
  · simp only
    split at h
    · cases h
    split at h
    · exact h
    · obtain ⟨items, hitems, rfl⟩ := Option.map_eq_some_iff.1 h
      rw [ih.items hitems, Option.map_some]
  · simp only
    split at h
    · cases h
    split at h
    · exact h
    · obtain ⟨fields, hfields, rfl⟩ := Option.map_eq_some_iff.1 h
      rw [ih.fields hfields, Option.map_some]
  · exact h

theorem items_succ (ih : ReadDeeper fuel) {place : Nat} {r : List Json × List Char}
    (h : items? (fuel + 1) depth focus place cs = some r) :
    items? (fuel + 1) (depth + 1) focus place cs = some r := by
  rw [items?] at h
  obtain ⟨⟨item, afterItem⟩, hitem, h⟩ := Option.bind_eq_some_iff.1 h
  simp only at h
  split at h
  · rename_i hcomma
    obtain ⟨⟨others, _⟩, hothers, h⟩ := Option.bind_eq_some_iff.1 h
    cases h
    exact items?_more (ih.value hitem) hcomma (ih.items hothers)
  · rename_i hclose
    cases h
    exact items?_last (ih.value hitem) hclose
  · cases h

theorem fields_succ (ih : ReadDeeper fuel) {r : List (String × Json) × List Char}
    (h : fields? (fuel + 1) depth focus cs = some r) : fields? (fuel + 1) (depth + 1) focus cs = some r := by
  rw [fields?] at h ⊢
  split at h
  · obtain ⟨⟨name, afterName⟩, hname, h⟩ := Option.bind_eq_some_iff.1 h
    simp only at h
    split at h
    · rename_i hcolon
      obtain ⟨⟨value, afterValue⟩, hvalue, h⟩ := Option.bind_eq_some_iff.1 h
      simp only at h
      split at h
      · rename_i hcomma
        obtain ⟨⟨others, _⟩, hothers, h⟩ := Option.bind_eq_some_iff.1 h
        cases h
        simp only [hname, hcolon, ih.value hvalue, hcomma, ih.fields hothers, Option.bind_eq_bind,
          Option.bind_some, Option.pure_def]
      · rename_i hclose
        cases h
        simp only [hname, hcolon, ih.value hvalue, hclose, Option.bind_eq_bind, Option.bind_some, Option.pure_def]
      · cases h
    · cases h
  · cases h

end ReadDeeper

theorem readDeeper (fuel : Nat) : ReadDeeper fuel := by
  induction fuel with
  | zero =>
    constructor
    · intro _ _ _ _ h
      simp [value?] at h
    · intro _ _ _ _ _ h
      simp [items?] at h
    · intro _ _ _ _ h
      simp [fields?] at h
  | succ fuel ih => exact ⟨ih.value_succ, ih.items_succ, ih.fields_succ⟩

theorem value?_of_le {fuel depth more : Nat} {focus : Focus} {cs : List Char} {r : Json × List Char}
    (h : value? fuel depth focus cs = some r) (hle : depth ≤ more) : value? fuel more focus cs = some r := by
  induction hle with
  | refl => exact h
  | step _ ih => exact (readDeeper fuel).value ih

/-! ## Texts of values -/

section Texts

variable {v : Json}

theorem parse?_pretty (hdepth : v.nesting ≤ depthLimit) (hnumbers : ∀ n ∈ v.numbers, n.ReadsBack) :
    parse? v.pretty = some v :=
  parseFor?_pretty (fits_whole_iff.2 ⟨hdepth, hnumbers⟩)

theorem eq_prune_of_parseFor? {focus : Focus} {j : Json} (hnumbers : ∀ n ∈ v.numbers, n.ReadsBack)
    (h : parseFor? focus v.pretty = some j) : j = focus.prune v := by
  unfold parseFor? at h
  simp only [pretty, String.toList_ofList] at h
  split at h
  · rename_i value rest hread
    have hfits : Fits Number.ReadsBack .whole (max depthLimit v.nesting) v :=
      fits_whole_iff.2 ⟨Nat.le_max_right .., hnumbers⟩
    have hwhole := hfits.restored Layout.pretty_blank [] 0 (2 * (v.render .pretty 0).length + 2) []
      (List.forall_mem_nil _) (by omega) trivial
    rw [List.nil_append, List.append_nil] at hwhole
    have hdeeper := value?_of_le hread (Nat.le_max_left depthLimit v.nesting)
    rw [(readPrunes _).value focus hwhole] at hdeeper
    cases hdeeper
    split at h
    · exact (Option.some.inj h).symm
    · cases h
  · cases h

end Texts

end Lineage.Json
