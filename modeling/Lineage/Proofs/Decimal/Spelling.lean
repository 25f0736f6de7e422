import Lineage.Proofs.Decimal.Exact
import Lineage.Proofs.Json.Scalar
import Lineage.Text.Blank
import Mathlib.Algebra.Order.Field.Power
import Mathlib.Algebra.Order.Field.Rat
import Mathlib.Tactic.Positivity

/-!
# How a decimal number may be written

A spelling has an optional sign, digits with at most one point before, among or behind them, and an
optional exponent. It is read as the double nearest to the number that it denotes.

Main results:
* `Spelling.parse?_text`: every spelling is read, and as the decimal that it denotes.
* `Decimal.value_eq_iff`: a decimal whose value is a whole number denotes it in the sense that the
  reader of doubles is exact about.
-/

namespace Lineage

/-! ## Values -/

/-- A number with a sign is a whole number if its magnitude is that of the number and its sign is, too;
zero has either sign. -/
theorem signed_eq_iff {negative : Bool} {size : ℚ} (hsize : 0 ≤ size) {z : ℤ} :
    (if negative then -1 else 1) * size = z ↔
      size = z.natAbs ∧ z = if negative then -(z.natAbs : ℤ) else z.natAbs := by
  have hsign : |if negative then (-1 : ℚ) else 1| = 1 := by split_ifs <;> simp
  have hsigned : (z : ℚ) = (if negative then -1 else 1) * (z.natAbs : ℚ) ↔
      z = if negative then -(z.natAbs : ℤ) else z.natAbs := by
    split_ifs
    · rw [neg_one_mul, ← Int.cast_natCast, ← Int.cast_neg, Int.cast_inj]
    · rw [one_mul, ← Int.cast_natCast, Int.cast_inj]
  rw [← hsigned]
  constructor
  · intro h
    have habs : size = z.natAbs := by
      rw [Nat.cast_natAbs, Int.cast_abs, ← h, abs_mul, hsign, one_mul, abs_of_nonneg hsize]
    exact ⟨habs, by rw [← habs, h]⟩
  · rintro ⟨habs, h⟩
    rw [habs, ← h]

namespace Decimal

variable {d : Decimal}

/-- The number that a decimal is. -/
def value (d : Decimal) : ℚ := (if d.negative then -1 else 1) * (d.coefficient * 10 ^ d.exponent)

theorem denotes_iff {n : ℕ} : d.Denotes n ↔ d.coefficient * 10 ^ d.exponent = (n : ℚ) := by
  have hpower : (10 : ℚ) ^ d.exponent * 10 ^ (-d.exponent).toNat = 10 ^ d.exponent.toNat := by
    rw [← zpow_natCast, ← zpow_natCast, ← zpow_add₀ (by norm_num)]
    congr 1
    omega
  have hpos : (10 : ℚ) ^ (-d.exponent).toNat ≠ 0 := pow_ne_zero _ (by norm_num)
  rw [Denotes, tenTo_eq, tenTo_eq, ← Nat.cast_inj (R := ℚ)]
  push_cast
  rw [← hpower, ← mul_assoc, mul_left_inj' hpos]

/-- Zeros at the end of the coefficient may be counted by the exponent. -/
theorem Denotes.shift {n : ℕ} (h : d.Denotes n) {significand zeros : ℕ}
    (hsplit : d.coefficient = significand * tenTo zeros) (negative : Bool) :
    Denotes ⟨negative, significand, d.exponent + zeros⟩ n := by
  rw [denotes_iff, hsplit, Nat.cast_mul, tenTo_eq, Nat.cast_pow, mul_assoc, ← zpow_natCast, Nat.cast_ofNat,
    ← zpow_add₀ (by norm_num), add_comm] at h
  exact denotes_iff.2 h

theorem value_eq_iff {z : ℤ} :
    d.value = z ↔ d.Denotes z.natAbs ∧ z = if d.negative then -(z.natAbs : ℤ) else z.natAbs := by
  rw [denotes_iff, value, signed_eq_iff (by positivity)]

end Decimal

namespace FiniteDouble

variable {x : FiniteDouble} {z : ℤ}

/-- The number that a double is. -/
def value (x : FiniteDouble) : ℚ := (if x.negative then -1 else 1) * (x.units / unitsOfOne)

theorem value_eq_iff : x.value = z ↔ x.Holds z.natAbs ∧ z = if x.negative then -(z.natAbs : ℤ) else z.natAbs := by
  have hone : (unitsOfOne : ℚ) ≠ 0 := Nat.cast_ne_zero.2 unitsOfOne_pos.ne'
  rw [value, signed_eq_iff (div_nonneg (Nat.cast_nonneg _) (Nat.cast_nonneg _)), div_eq_iff hone, Holds,
    ← Nat.cast_mul, Nat.cast_inj]

theorem toInt?_of_value (h : x.value = z) : x.toInt? = some z := by
  obtain ⟨hx, hsign⟩ := value_eq_iff.1 h
  rw [hx.toInt?, ← hsign]

/-- A whole number below `2 ^ 53` is a double. -/
theorem exists_value_eq (hz : z.natAbs < twoTo 53) {negative : Bool}
    (hsign : z = if negative then -(z.natAbs : ℤ) else z.natAbs) :
    ∃ x : FiniteDouble, x.negative = negative ∧ x.Holds z.natAbs ∧ x.value = z := by
  obtain ⟨x, rfl, hx⟩ := exists_holds negative hz (Nat.zero_le 900)
  rw [twoTo_zero, Nat.mul_one] at hx
  exact ⟨x, rfl, hx, value_eq_iff.2 ⟨hx, hsign⟩⟩

/-- A decimal that is a whole number below `2 ^ 53` is read as that number. -/
theorem exists_ofDecimal? (hz : z.natAbs < twoTo 53) {d : Decimal} (hd : d.value = z) :
    ∃ x, ofDecimal? d = some x ∧ x.value = z := by
  obtain ⟨hdenotes, hsign⟩ := Decimal.value_eq_iff.1 hd
  obtain ⟨x, hnegative, hx, hvalue⟩ := exists_value_eq hz hsign
  exact ⟨x, hx.ofDecimal? (Nat.lt_trans hz twoTo_lt_tenTo) hdenotes hnegative.symm, hvalue⟩

end FiniteDouble

/-! ## Spellings -/

/-- No sign, a plus or, where it is negative, a minus. -/
def signText : Option Bool → List Char
  | none => []
  | some false => ['+']
  | some true => ['-']

/-- An exponent as it may be written behind the digits. -/
structure WrittenExponent where
  upper : Bool
  sign : Option Bool
  digits : List Char
  isDigit : ∀ c ∈ digits, c.isDigit = true
  ne_nil : digits ≠ []

namespace WrittenExponent

def text (e : WrittenExponent) : List Char := (if e.upper then 'E' else 'e') :: (signText e.sign ++ e.digits)

def value (e : WrittenExponent) : ℤ :=
  if e.sign = some true then -(Decimal.ofDigits e.digits : ℤ) else Decimal.ofDigits e.digits

end WrittenExponent

/-- A decimal number as it may be written. -/
structure Spelling where
  sign : Option Bool
  /-- The digits before the point. -/
  whole : List Char
  /-- The digits behind the point, if there is a point. -/
  fraction : Option (List Char)
  exponent : Option WrittenExponent
  isDigit : ∀ c ∈ whole ++ fraction.getD [], c.isDigit = true
  ne_nil : whole ++ fraction.getD [] ≠ []

/-- A point with the digits behind it, if there is a point. -/
def pointText : Option (List Char) → List Char
  | none => []
  | some digits => '.' :: digits

def exponentText : Option WrittenExponent → List Char
  | none => []
  | some e => e.text

/-- Without an exponent nothing is scaled. -/
def exponentValue (e : Option WrittenExponent) : ℤ := (e.map (·.value)).getD 0

namespace Spelling

def text (p : Spelling) : List Char :=
  signText p.sign ++ (p.whole ++ (pointText p.fraction ++ exponentText p.exponent))

/-- The decimal that a spelling denotes. -/
def decimal (p : Spelling) : Decimal :=
  .ofParts (p.sign == some true) p.whole (p.fraction.getD []) (exponentValue p.exponent)

end Spelling

/-! ## Reading the parts -/

theorem spanDigits_append_of_forall {digits rest : List Char} (hdigits : ∀ c ∈ digits, c.isDigit = true)
    (hrest : ∀ c ∈ rest.head?, c.isDigit = false) : Decimal.spanDigits (digits ++ rest) = (digits, rest) := by
  induction digits with
  | nil =>
    cases rest with
    | nil => rfl
    | cons c rest => rw [List.nil_append, Json.spanDigits_cons, if_neg (by simp [hrest c rfl])]
  | cons c digits ih =>
    obtain ⟨hc, hdigits⟩ := List.forall_mem_cons.1 hdigits
    rw [List.cons_append, Json.spanDigits_cons, if_pos hc, ih hdigits]

/-- The digits behind a point, where there is one. -/
def fractionDigits : List Char → List Char × List Char
  | '.' :: cs => Decimal.spanDigits cs
  | cs => ([], cs)

theorem fractionDigits_of_ne {cs : List Char} (h : ∀ rest, cs ≠ '.' :: rest) : fractionDigits cs = ([], cs) := by
  unfold fractionDigits
  split
  · exact absurd rfl (h _)
  · rfl

theorem unsignedDecimal?_eq {negative : Bool} {cs whole afterWhole fraction afterFraction : List Char}
    {exponent : ℤ} (hwhole : Decimal.spanDigits cs = (whole, afterWhole))
    (hfraction : fractionDigits afterWhole = (fraction, afterFraction))
    (hexponent : Decimal.exponentPart? afterFraction = some (exponent, []))
    (hsome : ¬ (whole = [] ∧ fraction = [])) :
    Double.unsignedDecimal? negative cs = some (.ofParts negative whole fraction exponent) := by
  have hempty : (whole.isEmpty && fraction.isEmpty) = false := by
    rw [Bool.and_eq_false_iff, List.isEmpty_eq_false_iff, List.isEmpty_eq_false_iff]
    exact not_and_or.1 hsome
  unfold fractionDigits at hfraction
  unfold Double.unsignedDecimal?
  simp only [hwhole]
  split at hfraction
  · simp only [hfraction, hempty, hexponent, Bool.false_eq_true, if_false]
  · cases hfraction
    simp only [hempty, hexponent, Bool.false_eq_true, if_false]

theorem ne_of_isDigit {c d : Char} (hc : c.isDigit = true) (hd : d.isDigit = false) : c ≠ d := by
  rintro rfl
  rw [hc] at hd
  cases hd

namespace WrittenExponent

variable (e : WrittenExponent)

theorem signedDigits?_text : Json.signedDigits? (signText e.sign ++ e.digits) = some (e.value, []) := by
  have hread : ∀ negative, Json.exponentDigits? negative e.digits =
      some (if negative then -(Decimal.ofDigits e.digits : ℤ) else Decimal.ofDigits e.digits, []) := by
    intro negative
    rw [Json.exponentDigits?, Json.spanDigits_of_forall e.isDigit]
    simp only [List.isEmpty_eq_false_iff.2 e.ne_nil, Bool.false_eq_true, if_false]
  unfold value
  match hsign : e.sign with
  | none =>
    obtain ⟨c, cs, hcs⟩ := List.exists_cons_of_ne_nil e.ne_nil
    have hc : c.isDigit = true := e.isDigit c (hcs ▸ List.mem_cons_self)
    have hnone : Json.signedDigits? e.digits = Json.exponentDigits? false e.digits := by
      rw [hcs]
      exact Json.signedDigits?_cons (ne_of_isDigit hc rfl) (ne_of_isDigit hc rfl) cs
    rw [signText, List.nil_append, hnone, hread]
    rfl
  | some false => exact hread false
  | some true => exact hread true

theorem startsExponent_text : Decimal.startsExponent e.text = true := by
  unfold text
  cases e.upper <;> rfl

theorem exponentPart?_text : Decimal.exponentPart? e.text = some (e.value, []) := by
  have hmark := e.startsExponent_text
  unfold text at hmark ⊢
  rw [Json.exponentPart?_cons, if_pos hmark, e.signedDigits?_text]

end WrittenExponent

theorem exponentPart?_exponentText (e : Option WrittenExponent) :
    Decimal.exponentPart? (exponentText e) = some (exponentValue e, []) := by
  cases e with
  | none => rfl
  | some e => exact e.exponentPart?_text

theorem head?_exponentText (e : Option WrittenExponent) :
    ∀ c ∈ (exponentText e).head?, c.isDigit = false ∧ c ≠ '.' := by
  cases e with
  | none => exact nofun
  | some e =>
    rintro c ⟨⟩
    cases e.upper <;> decide

theorem isDigit_head?_pointText (fraction : Option (List Char)) (e : Option WrittenExponent) :
    ∀ c ∈ (pointText fraction ++ exponentText e).head?, c.isDigit = false := by
  cases fraction with
  | none => exact fun c hc => (head?_exponentText e c hc).1
  | some digits =>
    rintro c ⟨⟩
    rfl

theorem fractionDigits_pointText {fraction : Option (List Char)} (hdigits : ∀ c ∈ fraction.getD [], c.isDigit = true)
    (e : Option WrittenExponent) :
    fractionDigits (pointText fraction ++ exponentText e) = (fraction.getD [], exponentText e) := by
  cases fraction with
  | none =>
    refine fractionDigits_of_ne fun rest hrest => ?_
    have hhead : '.' ∈ (exponentText e).head? := congrArg List.head? hrest
    exact (head?_exponentText e '.' hhead).2 rfl
  | some digits => exact spanDigits_append_of_forall hdigits fun c hc => (head?_exponentText e c hc).1

namespace Spelling

variable (p : Spelling)

theorem unsignedDecimal?_text (negative : Bool) :
    Double.unsignedDecimal? negative (p.whole ++ (pointText p.fraction ++ exponentText p.exponent)) =
      some (.ofParts negative p.whole (p.fraction.getD []) (exponentValue p.exponent)) := by
  have hwhole := spanDigits_append_of_forall (fun c hc => p.isDigit c (List.mem_append_left _ hc))
    (isDigit_head?_pointText p.fraction p.exponent)
  have hfraction := fractionDigits_pointText (fun c hc => p.isDigit c (List.mem_append_right _ hc)) p.exponent
  refine unsignedDecimal?_eq hwhole hfraction (exponentPart?_exponentText p.exponent) ?_
  exact fun h => p.ne_nil (List.append_eq_nil_iff.2 h)

theorem exists_eq_cons : ∃ c cs, p.whole ++ (pointText p.fraction ++ exponentText p.exponent) = c :: cs ∧
    (c.isDigit = true ∨ c = '.') := by
  cases hwhole : p.whole with
  | cons c cs => exact ⟨c, _, rfl, .inl (p.isDigit c (List.mem_append_left _ (hwhole ▸ List.mem_cons_self)))⟩
  | nil =>
    cases hfraction : p.fraction with
    | none => exact absurd (by rw [hwhole, hfraction]; rfl) p.ne_nil
    | some digits => exact ⟨'.', _, rfl, .inr rfl⟩

end Spelling

/-! ## Reading a spelling -/

theorem toLower_eq_of_isDigit {c : Char} (hc : c.isDigit = true) : c.toLower = c := by
  have hle : c.toNat ≤ '9'.toNat := (Char.isDigit_iff_toNat.1 hc).2
  have hlt : '9'.toNat < 'A'.toNat := by decide
  refine dif_neg fun hupper => ?_
  have hge : 'A'.toNat ≤ c.toNat := hupper.1
  omega

/-- What starts like a decimal is none of the words for other doubles. -/
theorem ofList_map_toLower_ne {c : Char} (hc : c.isDigit = true ∨ c = '.') (cs : List Char) (word : String)
    (hword : ∀ d ∈ word.toList.head?, d.isDigit = false ∧ d ≠ '.') :
    String.ofList ((c :: cs).map Char.toLower) ≠ word := by
  rintro rfl
  rw [String.toList_ofList] at hword
  obtain ⟨hdigit, hpoint⟩ := hword c.toLower rfl
  rcases hc with hc | rfl
  · rw [toLower_eq_of_isDigit hc, hc] at hdigit
    cases hdigit
  · exact hpoint rfl

theorem Double.parse?_signText (sign : Option Bool) {c : Char} (hc : c.isDigit = true ∨ c = '.') (cs : List Char) :
    Double.parse? (String.ofList (signText sign ++ c :: cs)) =
      (Double.unsignedDecimal? (sign == some true) (c :: cs)).map .ofDecimal := by
  have hinf := ofList_map_toLower_ne hc cs "inf" (by simp)
  have hinfinity := ofList_map_toLower_ne hc cs "infinity" (by simp)
  have hnan := ofList_map_toLower_ne hc cs "nan" (by simp)
  have hsign : c ≠ '+' ∧ c ≠ '-' := by
    rcases hc with hc | rfl
    · exact ⟨ne_of_isDigit hc rfl, ne_of_isDigit hc rfl⟩
    · decide
  unfold Double.parse?
  rw [String.toList_ofList]
  match sign with
  | none =>
    rw [signText, List.nil_append]
    split
    rename_i heq
    split at heq
    · rename_i hcons
      exact absurd (List.cons.inj hcons).1 hsign.1
    · rename_i hcons
      exact absurd (List.cons.inj hcons).1 hsign.2
    · cases heq
      rw [if_neg (not_or.2 ⟨hinf, hinfinity⟩), if_neg hnan]
      rfl
  | some false | some true =>
    simp only [signText, List.cons_append, List.nil_append, hinf, hinfinity, hnan, or_self, if_false]
    rfl

/-- A spelling is read, as the decimal that it denotes. -/
theorem Spelling.parse?_text (p : Spelling) : Double.parse? (String.ofList p.text) = some (.ofDecimal p.decimal) := by
  obtain ⟨c, cs, hcs, hc⟩ := p.exists_eq_cons
  rw [text, hcs, Double.parse?_signText p.sign hc, ← hcs, p.unsignedDecimal?_text]
  rfl

end Lineage
