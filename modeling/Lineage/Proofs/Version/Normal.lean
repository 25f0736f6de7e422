import Lineage.Proofs.Json.Exact
import Lineage.Proofs.Text.Trim
import Lineage.Version

/-!
# The normal form of versions

A text that spells a whole number below `10 ^ 15` goes through a double and back, and no digit is lost
on the way: every such number is a double, and the texts that spell it are read as it.

Main results:
* `Version.normalize_normalize`: a normal form is its own.
* `Version.normalize_of_spells`: all spellings of one whole number have its digits as their normal form.
* `Version.whole_number_normal_form`: so two versions that are whole numbers are the same version if
  and only if they are the same number. A number in JSON is the one that it is read as, and that is
  the one that is written where a double holds as many of its digits as fit 64 bits.
-/

namespace Lineage

/-! ## Spellings have no blanks -/

theorem isBlank_of_mem_signText {sign : Option Bool} {c : Char} (hc : c ∈ signText sign) : Text.isBlank c = false := by
  match sign with
  | none => cases hc
  | some false | some true =>
    obtain rfl := List.mem_singleton.1 hc
    decide

theorem isBlank_of_mem_exponentText {e : Option WrittenExponent} {c : Char} (hc : c ∈ exponentText e) :
    Text.isBlank c = false := by
  cases e with
  | none => cases hc
  | some e =>
    rcases List.mem_cons.1 hc with rfl | hc
    · split_ifs <;> decide
    · rcases List.mem_append.1 hc with hc | hc
      · exact isBlank_of_mem_signText hc
      · exact isBlank_of_isDigit (e.isDigit c hc)

theorem Spelling.isBlank_of_mem_text {p : Spelling} {c : Char} (hc : c ∈ p.text) : Text.isBlank c = false := by
  simp only [text, List.mem_append] at hc
  rcases hc with hc | hc | hc | hc
  · exact isBlank_of_mem_signText hc
  · exact isBlank_of_isDigit (p.isDigit c (List.mem_append_left _ hc))
  · cases hfraction : p.fraction with
    | none =>
      rw [hfraction] at hc
      cases hc
    | some digits =>
      rw [hfraction] at hc
      rcases List.mem_cons.1 hc with rfl | hc
      · decide
      · exact isBlank_of_isDigit (p.isDigit c (List.mem_append_right _ (hfraction ▸ hc)))
  · exact isBlank_of_mem_exponentText hc

namespace Version

/-- The text spells the whole number, with any blanks around. -/
def Spells (s : String) (z : ℤ) : Prop :=
  ∃ (before after : List Char) (p : Spelling), s.toList = before ++ p.text ++ after ∧
    (∀ c ∈ before, Text.isBlank c = true) ∧ (∀ c ∈ after, Text.isBlank c = true) ∧ p.decimal.value = z

theorem Spells.trim {s : String} {z : ℤ} (h : Spells s z) :
    ∃ p : Spelling, Text.trim s = String.ofList p.text ∧ p.decimal.value = z := by
  obtain ⟨before, after, p, hs, hbefore, hafter, hvalue⟩ := h
  refine ⟨p, ?_, hvalue⟩
  rw [Text.trim, hs, Text.trimList_append hbefore hafter
    (fun _ hc => p.isBlank_of_mem_text (List.mem_of_mem_head? hc))
    (fun _ hc => p.isBlank_of_mem_text (List.mem_of_mem_getLast? hc))]

/-- A text without blanks that is a spelling. -/
theorem spells_of_text {s : String} {z : ℤ} {p : Spelling} (hs : s.toList = p.text) (hvalue : p.decimal.value = z) :
    Spells s z :=
  ⟨[], [], p, by rw [hs, List.nil_append, List.append_nil], nofun, nofun, hvalue⟩

theorem wholeNumber?_text {p : Spelling} {z : ℤ} (hz : z.natAbs < tenTo 15) (hvalue : p.decimal.value = z) :
    wholeNumber? (String.ofList p.text) = some z := by
  have hlt : z.natAbs < twoTo 53 := Nat.lt_trans hz (by decide)
  obtain ⟨x, hread, hx⟩ := FiniteDouble.exists_ofDecimal? hlt hvalue
  unfold wholeNumber?
  simp only [p.parse?_text, Double.ofDecimal, hread, FiniteDouble.toInt?_of_value hx, Option.filter_some,
    decide_eq_true hz, if_true]

/-- All spellings of one whole number have its digits as their normal form. -/
theorem normalize_of_spells {s : String} {z : ℤ} (hz : z.natAbs < tenTo 15) (h : Spells s z) :
    normalize s = toString z := by
  obtain ⟨p, hs, hvalue⟩ := h.trim
  simp only [normalize, hs, wholeNumber?_text hz hvalue]

theorem toList_toString (z : ℤ) : (toString z).toList = (Json.Number.whole z).text := by
  rw [Int.toString_eq_repr, Int.repr_eq_if, Json.Number.text]
  split_ifs with hnonneg hneg hneg
  · omega
  · rw [Nat.repr_eq_ofList_toDigits, String.toList_ofList, (by omega : z.toNat = z.natAbs)]
    rfl
  · rw [String.toList_append, Nat.repr_eq_ofList_toDigits, String.toList_ofList, String.toList_ofList,
      (by omega : (-z).toNat = z.natAbs)]
    rfl
  · omega

/-- The digits of a whole number are a spelling of it. -/
theorem exists_text_toString {z : ℤ} (hz : z.natAbs < tenTo 15) :
    ∃ p : Spelling, toString z = String.ofList p.text ∧ p.decimal.value = z := by
  obtain ⟨p, hp, hvalue⟩ := Json.Number.exists_spelling (v := .whole z) rfl hz
  exact ⟨p, by rw [hp, ← toList_toString, String.ofList_toList], hvalue⟩

theorem spells_toString {z : ℤ} (hz : z.natAbs < tenTo 15) : Spells (toString z) z := by
  obtain ⟨p, hp, hvalue⟩ := exists_text_toString hz
  exact spells_of_text (by rw [hp, String.toList_ofList]) hvalue

theorem wholeNumber?_toString {z : ℤ} (hz : z.natAbs < tenTo 15) : wholeNumber? (toString z) = some z := by
  obtain ⟨p, hp, hvalue⟩ := exists_text_toString hz
  rw [hp, wholeNumber?_text hz hvalue]

theorem lt_of_wholeNumber? {s : String} {z : ℤ} (h : wholeNumber? s = some z) : z.natAbs < tenTo 15 := by
  unfold wholeNumber? at h
  split at h
  · exact of_decide_eq_true (Option.filter_eq_some_iff.1 h).2
  · cases h

/-- A normal form is its own: the digits of a whole number spell it, and other texts are trimmed already. -/
theorem normalize_normalize (s : String) : normalize (normalize s) = normalize s := by
  cases hwhole : wholeNumber? (Text.trim s) with
  | some z =>
    have hnormal : normalize s = toString z := by simp only [normalize, hwhole]
    rw [hnormal]
    exact normalize_of_spells (lt_of_wholeNumber? hwhole) (spells_toString (lt_of_wholeNumber? hwhole))
  | none =>
    have hnormal : normalize s = Text.trim s := by simp only [normalize, hwhole]
    rw [hnormal]
    simp only [normalize, Text.trim_trim, hwhole]

/-! ## Versions that are whole numbers -/

/-- The value is the whole number: as the number that it was read as, or as a text that spells it. -/
def Denotes : Json → ℤ → Prop
  | .num n, z => n.value = z
  | .str s, z => Spells s z
  | _, _ => False

theorem ofJson?_of_denotes {v : Json} {z : ℤ} (hz : z.natAbs < tenTo 15) (h : Denotes v z) :
    ofJson? v = some (toString z) := by
  cases v with
  | num n =>
    obtain ⟨p, hp, hvalue⟩ := Json.Number.exists_spelling h hz
    exact congrArg some (normalize_of_spells hz (spells_of_text (by rw [String.toList_ofList, hp]) hvalue))
  | str s => exact congrArg some (normalize_of_spells hz h)
  | null | bool _ | arr _ | obj _ => exact h.elim

theorem ofJson?_eq_iff {v w : Json} {z u : ℤ} (hz : z.natAbs < tenTo 15) (hu : u.natAbs < tenTo 15)
    (hv : Denotes v z) (hw : Denotes w u) : ofJson? v = ofJson? w ↔ z = u := by
  rw [ofJson?_of_denotes hz hv, ofJson?_of_denotes hu hw, Option.some.injEq]
  refine ⟨fun h => ?_, congrArg toString⟩
  have hread := wholeNumber?_toString hz
  rw [h, wholeNumber?_toString hu] at hread
  exact (Option.some.inj hread).symm

/-- A JSON number whose digits a double holds is read as what is written. -/
theorem exists_denotes_of_numeral? {s : String} {n : Json.Numeral} (h : Json.numeral? s.toList = some (n, []))
    (hexact : n.HeldExactly) {z : ℤ} (hz : z.natAbs < tenTo 15) (hvalue : n.decimal.value = z) :
    Denotes (.str s) z ∧ ∃ v, Json.parse? s = some v ∧ Denotes v z := by
  obtain ⟨⟨p, hp, hpvalue⟩, v, hv, hread⟩ := Json.exists_parse?_eq h hexact hvalue hz
  exact ⟨spells_of_text hp.symm hpvalue, .num v, hv, hread⟩

/-- The normal form is its own, and it is the shortest decimal writing of every whole number below
`10 ^ 15` however that is spelled. So two such versions are the same if and only if they are the same number,
each a text or a number in JSON. The latter counts as the number it is read as, which is the one that is written
where a double holds as many of its digits as fit 64 bits. -/
theorem whole_number_normal_form :
    (∀ s, normalize (normalize s) = normalize s) ∧
    ∀ z : ℤ, |z| < 10 ^ 15 →
      (∀ s, Spells s z → normalize s = toString z) ∧
      (∀ v, Denotes v z → ofJson? v = some (toString z)) ∧
      (∀ v w u, |u| < 10 ^ 15 → Denotes v z → Denotes w u → (ofJson? v = ofJson? w ↔ z = u)) ∧
      ∀ s n, Json.numeral? s.toList = some (n, []) → n.HeldExactly → n.decimal.value = z →
        Denotes (.str s) z ∧ ∃ v, Json.parse? s = some v ∧ Denotes v z := by
  have hbound : ∀ z : ℤ, |z| < 10 ^ 15 → z.natAbs < tenTo 15 := by
    intro z hz
    rw [← Int.natCast_natAbs] at hz
    exact_mod_cast hz
  refine ⟨normalize_normalize, fun z hz => ⟨fun s => normalize_of_spells (hbound z hz),
    fun v => ofJson?_of_denotes (hbound z hz), fun v w u hu => ofJson?_eq_iff (hbound z hz) (hbound u hu),
    fun s n h hexact => exists_denotes_of_numeral? h hexact (hbound z hz)⟩⟩

/-- Twenty tenths, with a sign, leading zeros, an exponent and blanks, are two. -/
theorem spells_two : Spells " +0020e-1 " 2 :=
  let exponent : WrittenExponent := ⟨false, some true, ['1'], List.all_eq_true.1 rfl, by decide⟩
  let p : Spelling := ⟨some false, ['0', '0', '2', '0'], none, some exponent, List.all_eq_true.1 rfl, by decide⟩
  ⟨[' '], [' '], p, by decide, List.all_eq_true.1 rfl, List.all_eq_true.1 rfl,
    Decimal.value_eq_iff.2 ⟨by decide, by decide⟩⟩

theorem whole_number_normal_form_two :
    normalize " +0020e-1 " = "2" ∧ ofJson? (.str " +0020e-1 ") = ofJson? (.num (.whole 2)) ∧
      ∃ v, Json.parse? "2.0" = some v ∧ Denotes v 2 := by
  have hbound : |(2 : ℤ)| < 10 ^ 15 := by decide
  have hwhole : Denotes (.num (.whole 2)) 2 := rfl
  have hdigits : Json.numeral? "2.0".toList = some (⟨false, ['2'], ['0'], none⟩, []) := by decide
  have hvalue : Decimal.value (Json.Numeral.decimal ⟨false, ['2'], ['0'], none⟩) = (2 : ℤ) :=
    Decimal.value_eq_iff.2 ⟨by decide, by decide⟩
  obtain ⟨hspells, -, hsame, hnumeral⟩ := whole_number_normal_form.2 2 hbound
  refine ⟨hspells _ spells_two, (hsame (.str _) _ 2 hbound spells_two hwhole).2 rfl, ?_⟩
  exact (hnumeral "2.0" _ hdigits (Json.Numeral.heldExactly_of_lt (by decide)) hvalue).2

/-- The digits of this number fill 57 binary places, and the nearest double to them is divided by a hundred:
the quotient is not the number that is written. As a text it is. -/
theorem json_number_read_as_neighbour :
    Spells "987367410332946.00" 987367410332946 ∧
      ofJson? (.str "987367410332946.00") = some "987367410332946" ∧
      (Json.parse? "987367410332946.00").bind ofJson? = some "987367410332945.9" :=
  let p : Spelling := ⟨none, "987367410332946".toList, some ['0', '0'], none, List.all_eq_true.1 rfl, by decide⟩
  have hspells : Spells "987367410332946.00" 987367410332946 :=
    ⟨[], [], p, by decide, nofun, nofun, Decimal.value_eq_iff.2 ⟨by decide, by decide⟩⟩
  ⟨hspells, by decide +kernel, by decide +kernel⟩

end Version

end Lineage
