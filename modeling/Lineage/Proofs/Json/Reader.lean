import Lineage.Json.Reader
import Lineage.Proofs.Json.Value

/-!
# What the reader answers with

Main result:
* `Json.fits_of_parseFor?`: a value that was read nests no deeper than the reader allows, and its whole
  numbers fit 64 bits.
-/

namespace Lineage.Json

/-- A whole number fits 64 bits. -/
def Number.InRange : Number → Prop
  | .whole n => isWhole n = true
  | .real _ => True

theorem Number.inRange_of_ofNumeral? {numeral : Numeral} {n : Number}
    (h : Number.ofNumeral? numeral = some n) : n.InRange := by
  unfold Number.ofNumeral? at h
  split at h
  · rename_i hwhole
    simp only [Bool.and_eq_true] at hwhole
    obtain rfl := Option.some.inj h
    exact hwhole.1.2
  · obtain ⟨x, -, rfl⟩ := Option.map_eq_some_iff.1 h
    trivial

theorem inRange_of_number? {cs rest : List Char} {n : Number} (h : number? cs = some (n, rest)) :
    n.InRange := by
  simp only [number?, Option.bind_eq_bind, Option.bind_eq_some_iff, Option.pure_def, Option.some.injEq,
    Prod.mk.injEq] at h
  obtain ⟨_, -, n', hn, rfl, -⟩ := h
  exact Number.inRange_of_ofNumeral? hn

/-! ## Values -/

/-- Everything that the reader answers with at this fuel fits as many levels as it may open. -/
structure ReadFits (fuel : Nat) : Prop where
  value {depth : Nat} {focus : Focus} {cs rest : List Char} {v : Json} :
    value? fuel depth focus cs = some (v, rest) → Fits Number.InRange .whole depth v
  items {depth : Nat} {focus : Focus} {place : Nat} {cs rest : List Char} {items : List Json} :
    items? fuel depth focus place cs = some (items, rest) →
      ∀ item ∈ items, Fits Number.InRange .whole depth item
  fields {depth : Nat} {focus : Focus} {cs rest : List Char} {fields : List (String × Json)} :
    fields? fuel depth focus cs = some (fields, rest) →
      ∀ field ∈ fields, Fits Number.InRange .whole depth field.2

namespace ReadFits

variable {fuel depth : Nat} {focus : Focus} {cs rest : List Char}

theorem value_succ (ih : ReadFits fuel) {v : Json} (h : value? (fuel + 1) depth focus cs = some (v, rest)) :
    Fits Number.InRange .whole depth v := by
  rw [value?.eq_def] at h
  split at h
  · cases h
  · obtain ⟨_, -, heq⟩ := Option.map_eq_some_iff.1 h
    cases heq
    exact .null Focus.whole_kept
  · rename_i heq _
    cases heq
    split at h
    · cases h
      exact .null Focus.whole_kept
    · cases h
      exact .bool Focus.whole_kept
    · cases h
      exact .bool Focus.whole_kept
    · obtain ⟨_, -, heq⟩ := Option.map_eq_some_iff.1 h
      cases heq
      exact .str Focus.whole_kept
    · split at h
      · cases h
      · split at h
        · cases h
          exact .arr_of_mem Focus.whole_kept (fun _ => rfl) (List.forall_mem_nil _)
        · obtain ⟨_, hitems, heq⟩ := Option.map_eq_some_iff.1 h
          cases heq
          exact .arr_of_mem Focus.whole_kept (fun _ => rfl) (ih.items hitems)
    · split at h
      · cases h
      · split at h
        · cases h
          exact .obj Focus.whole_kept fun _ _ hmem => absurd hmem List.not_mem_nil
        · obtain ⟨_, hfields, heq⟩ := Option.map_eq_some_iff.1 h
          cases heq
          exact .obj Focus.whole_kept fun name value hmem => ih.fields hfields (name, value) hmem
    · obtain ⟨_, hn, heq⟩ := Option.map_eq_some_iff.1 h
      cases heq
      exact .num Focus.whole_kept (inRange_of_number? hn)

theorem items_succ (ih : ReadFits fuel) {place : Nat} {items : List Json}
    (h : items? (fuel + 1) depth focus place cs = some (items, rest)) :
    ∀ item ∈ items, Fits Number.InRange .whole depth item := by
  rw [items?] at h
  obtain ⟨⟨item, afterItem⟩, hitem, h⟩ := Option.bind_eq_some_iff.1 h
  simp only at h
  split at h
  · obtain ⟨⟨others, _⟩, hothers, h⟩ := Option.bind_eq_some_iff.1 h
    cases h
    exact List.forall_mem_cons.2 ⟨ih.value hitem, ih.items hothers⟩
  · cases h
    exact List.forall_mem_singleton.2 (ih.value hitem)
  · cases h

/-- What is kept of a field is the field, or nothing. -/
theorem forall_mem_keep {p : String × Json → Prop} {name : String} {value : Json} (h : p (name, value)) :
    ∀ field ∈ focus.keep name value, p field := by
  unfold Focus.keep
  split
  · exact nofun
  · exact List.forall_mem_singleton.2 h

theorem fields_succ (ih : ReadFits fuel) {fields : List (String × Json)}
    (h : fields? (fuel + 1) depth focus cs = some (fields, rest)) :
    ∀ field ∈ fields, Fits Number.InRange .whole depth field.2 := by
  rw [fields?] at h
  split at h
  · obtain ⟨⟨name, afterName⟩, -, h⟩ := Option.bind_eq_some_iff.1 h
    simp only at h
    split at h
    · obtain ⟨⟨value, afterValue⟩, hvalue, h⟩ := Option.bind_eq_some_iff.1 h
      have hkept : ∀ field ∈ focus.keep name value, Fits Number.InRange .whole depth field.2 :=
        forall_mem_keep (ih.value hvalue)
      simp only at h
      split at h
      · obtain ⟨⟨others, _⟩, hothers, h⟩ := Option.bind_eq_some_iff.1 h
        cases h
        exact List.forall_mem_append.2 ⟨hkept, ih.fields hothers⟩
      · cases h
        exact hkept
      · cases h
    · cases h
  · cases h

end ReadFits

theorem readFits (fuel : Nat) : ReadFits fuel := by
  induction fuel with
  | zero =>
    constructor
    · intro _ _ _ _ _ h
      simp [value?] at h
    · intro _ _ _ _ _ _ h
      simp [items?] at h
    · intro _ _ _ _ _ h
      simp [fields?] at h
  | succ fuel ih => exact ⟨ih.value_succ, ih.items_succ, ih.fields_succ⟩

theorem fits_of_parseFor? {focus : Focus} {s : String} {v : Json} (h : parseFor? focus s = some v) :
    Fits Number.InRange .whole depthLimit v := by
  unfold parseFor? at h
  simp only at h
  split at h
  · rename_i hread
    split at h
    · obtain rfl := Option.some.inj h
      exact (readFits _).value hread
    · cases h
  · cases h

end Lineage.Json
