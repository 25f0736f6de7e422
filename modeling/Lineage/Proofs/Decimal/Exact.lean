import Lineage.Decimal.Double
import Lineage.Proofs.Decimal.Digits
import Mathlib.Data.Nat.Log

/-!
# Numbers that doubles hold exactly

Reading rounds to the nearest double, and so it changes nothing where the number is a double.

Main results:
* `FiniteDouble.ofRatio?_eq`: a ratio that is the magnitude of a double is read as that double.
* `FiniteDouble.exists_holds`: doubles hold every whole number below `2 ^ 53`, and these times small
  powers of two.
* `FiniteDouble.Holds.ofDecimal?`: so a decimal that denotes such a whole number is read as it.
-/

namespace Lineage

namespace FiniteDouble

theorem unitsOfOne_pos : 0 < unitsOfOne := twoTo_pos 1074

/-! ## Ranks and magnitudes -/

/-- A magnitude is a significand of at most 53 binary digits, doubled some times; it has fewer of
them only where nothing is doubled. -/
theorem exists_unitsAt (rank : Nat) : ∃ significand doublings,
    unitsAt rank = significand * twoTo doublings ∧ rank = doublings * twoTo 52 + significand ∧
      significand < twoTo 53 ∧ (0 < doublings → twoTo 52 ≤ significand) := by
  have hhalf : twoTo 53 = 2 * twoTo 52 := twoTo_succ 52
  have hpos : 0 < twoTo 52 := twoTo_pos 52
  have hrank : rank / twoTo 52 * twoTo 52 + rank % twoTo 52 = rank := Nat.div_add_mod' rank _
  have hmod : rank % twoTo 52 < twoTo 52 := Nat.mod_lt _ hpos
  refine ⟨rank - doublings rank * twoTo 52, doublings rank, rfl, ?_, ?_, ?_⟩ <;>
  · unfold doublings
    generalize twoTo 52 = p at *
    generalize rank / p = q at *
    obtain _ | q := q
    · simp only [Nat.zero_mul, Nat.zero_sub] at *
      omega
    · simp only [Nat.add_sub_cancel, Nat.succ_mul] at *
      generalize q * p = w at *
      omega

theorem bitLength_mul_twoTo {significand : Nat} (hlow : twoTo 52 ≤ significand) (hhigh : significand < twoTo 53)
    (n : Nat) : bitLength (significand * twoTo n) = 53 + n := by
  have hpos : significand * twoTo n ≠ 0 :=
    Nat.mul_ne_zero (Nat.pos_iff_ne_zero.1 (Nat.lt_of_lt_of_le (twoTo_pos 52) hlow)) (twoTo_pos n).ne'
  have hlog : (significand * twoTo n).log2 = 52 + n := by
    rw [Nat.log2_eq_iff hpos, ← twoTo_eq, ← twoTo_eq, twoTo_add, Nat.add_right_comm, twoTo_add]
    exact ⟨Nat.mul_le_mul_right _ hlow, Nat.mul_lt_mul_of_pos_right hhigh (twoTo_pos n)⟩
  rw [bitLength, if_neg hpos, hlog]
  omega

theorem bitLength_le {n k : Nat} (h : n < twoTo k) : bitLength n ≤ k := by
  unfold bitLength
  split_ifs with hzero
  · exact Nat.zero_le k
  · exact (Nat.log2_lt hzero).2 h

/-- What the quotient is rounded from is the quotient itself. -/
theorem roundDiv_mul (q : Nat) {den : Nat} (hden : 0 < den) : roundDiv (q * den) den = q := by
  unfold roundDiv
  rw [Nat.mul_mod_left, Nat.mul_div_cancel _ hden]
  exact if_pos hden

/-- The reader's number of doublings is that of the magnitude, so the quotient it rounds is whole. -/
theorem rankOf_unitsAt (rank : Nat) {den : Nat} (hden : 0 < den) : rankOf (unitsAt rank * den) den = rank := by
  obtain ⟨significand, doublings, hunits, hrank, hhigh, hlow⟩ := exists_unitsAt rank
  have hdoublings : bitLength (unitsAt rank) - 53 = doublings := by
    rw [hunits]
    rcases Nat.eq_zero_or_pos doublings with rfl | hpos
    · exact Nat.sub_eq_zero_of_le (bitLength_le (by rwa [twoTo_zero, Nat.mul_one]))
    · rw [bitLength_mul_twoTo (hlow hpos) hhigh, Nat.add_sub_cancel_left]
  have hquotient : unitsAt rank * den = significand * (den * twoTo doublings) := by
    rw [hunits, Nat.mul_assoc, Nat.mul_comm den]
  simp only [rankOf, Nat.mul_div_cancel _ hden, hdoublings]
  rw [hquotient, roundDiv_mul _ (Nat.mul_pos hden (twoTo_pos _)), hrank]

theorem units_zero (negative : Bool) : (zero negative).units = 0 := by
  simp [units, unitsAt, zero]

/-- A ratio that is the magnitude of a double is read as that double. -/
theorem ofRatio?_eq (x : FiniteDouble) {num den : Nat} (hden : 0 < den) (h : num * unitsOfOne = x.units * den) :
    ofRatio? x.negative num den = some x := by
  have hrank : rankOf (num * unitsOfOne) den = x.rank := by rw [h, units, rankOf_unitsAt _ hden]
  unfold ofRatio?
  simp only [hrank, x.rank.isLt, dite_true]

/-- A significand with all of its 53 binary digits, doubled some times, stands at this rank. -/
theorem unitsAt_add {significand : Nat} (hlow : twoTo 52 ≤ significand) (hhigh : significand < twoTo 53)
    (n : Nat) : unitsAt (n * twoTo 52 + significand) = significand * twoTo n := by
  have hhalf : twoTo 53 = 2 * twoTo 52 := twoTo_succ 52
  have hquotient : (n * twoTo 52 + significand) / twoTo 52 = n + 1 := by
    rw [Nat.div_eq_iff (twoTo_pos 52), Nat.succ_mul]
    omega
  have hdoublings : doublings (n * twoTo 52 + significand) = n := by rw [doublings, hquotient, Nat.add_sub_cancel]
  rw [unitsAt, hdoublings, Nat.add_sub_cancel_left]

/-! ## Whole numbers -/

/-- The double is `± n`. -/
def Holds (x : FiniteDouble) (n : Nat) : Prop := x.units = n * unitsOfOne

/-- Two doubles of one sign that hold one number are the same: both are what the number is read as. -/
theorem Holds.eq {x y : FiniteDouble} {n : Nat} (hx : x.Holds n) (hy : y.Holds n)
    (hsign : x.negative = y.negative) : x = y := by
  have hread : ∀ z : FiniteDouble, z.Holds n → FiniteDouble.ofRatio? z.negative n 1 = some z :=
    fun z hz => ofRatio?_eq z Nat.one_pos (by rw [hz, Nat.mul_one])
  have hsame := hread x hx
  rw [hsign, hread y hy] at hsame
  exact (Option.some.inj hsame).symm

theorem Holds.unique {x : FiniteDouble} {m n : Nat} (hm : x.Holds m) (hn : x.Holds n) : m = n :=
  Nat.eq_of_mul_eq_mul_right unitsOfOne_pos (hm.symm.trans hn)

theorem holds_zero (negative : Bool) : (zero negative).Holds 0 := by rw [Holds, units_zero, Nat.zero_mul]

/-- The places of the digits are moved up to 53 of them, for which there are doublings enough. -/
theorem exists_holds (negative : Bool) {significand n : Nat} (h : significand < twoTo 53) (hn : n ≤ 900) :
    ∃ x : FiniteDouble, x.negative = negative ∧ x.Holds (significand * twoTo n) := by
  rcases Nat.eq_zero_or_pos significand with rfl | hpos
  · rw [Nat.zero_mul]
    exact ⟨zero negative, rfl, holds_zero negative⟩
  · obtain ⟨hlow, hhigh⟩ := (Nat.log2_eq_iff hpos.ne').1 rfl
    have hlog : significand.log2 < 53 := (Nat.log2_lt hpos.ne').2 h
    obtain ⟨missing, hmissing⟩ : ∃ k, 52 = significand.log2 + k := Nat.exists_eq_add_of_le (by omega)
    obtain ⟨doublings, hdoublings⟩ : ∃ k, n + 1074 = missing + k := Nat.exists_eq_add_of_le (by omega)
    have hfull : twoTo 52 ≤ significand * twoTo missing := by
      rw [hmissing, twoTo_add]
      exact Nat.mul_le_mul_right _ hlow
    have hbound : significand * twoTo missing < twoTo 53 := by
      rw [show 53 = significand.log2 + 1 + missing by omega, twoTo_add]
      exact Nat.mul_lt_mul_of_pos_right hhigh (twoTo_pos _)
    have hrank : doublings * twoTo 52 + significand * twoTo missing < magnitudeCount := by
      have hhalf : twoTo 53 = 2 * twoTo 52 := twoTo_succ 52
      have hmul : doublings * twoTo 52 ≤ 1974 * twoTo 52 := Nat.mul_le_mul_right _ (by omega)
      unfold magnitudeCount
      omega
    refine ⟨⟨negative, _, hrank⟩, rfl, ?_⟩
    rw [Holds, units, unitsAt_add hfull hbound, unitsOfOne, Nat.mul_assoc, Nat.mul_assoc, ← twoTo_add,
      ← twoTo_add, hdoublings]

theorem Holds.toInt? {x : FiniteDouble} {n : Nat} (h : x.Holds n) :
    x.toInt? = some (if x.negative then -(n : ℤ) else n) := by
  rw [FiniteDouble.toInt?, h, Nat.mul_mod_left, Nat.mul_div_cancel _ unitsOfOne_pos]
  rfl

theorem Holds.ofRatio? {x : FiniteDouble} {n : Nat} (h : x.Holds n) {num den : Nat} (hden : 0 < den)
    (hratio : num = n * den) : ofRatio? x.negative num den = some x := by
  refine ofRatio?_eq x hden ?_
  rw [h, hratio, Nat.mul_right_comm]

end FiniteDouble

/-! ## Decimals -/

namespace Decimal

/-- The decimal is `± n`. -/
def Denotes (d : Decimal) (n : Nat) : Prop :=
  d.coefficient * tenTo d.exponent.toNat = n * tenTo (-d.exponent).toNat

instance (d : Decimal) (n : Nat) : Decidable (d.Denotes n) := inferInstanceAs (Decidable (_ = _))

/-- Without a negative exponent there is nothing to scale the number by. -/
theorem denotes_of_nonneg {d : Decimal} {n : Nat} (hexponent : 0 ≤ d.exponent) :
    d.Denotes n ↔ d.coefficient * tenTo d.exponent.toNat = n := by
  rw [Denotes, Int.toNat_eq_zero.2 (by omega : -d.exponent ≤ 0), tenTo_zero, Nat.mul_one]

theorem Denotes.coefficient_eq_zero_iff {d : Decimal} {n : Nat} (h : d.Denotes n) : d.coefficient = 0 ↔ n = 0 := by
  have hpower := fun k => (tenTo_pos k).ne'
  constructor
  · intro hd
    rw [Denotes, hd, Nat.zero_mul] at h
    exact (Nat.mul_eq_zero.1 h.symm).resolve_right (hpower _)
  · intro hn
    rw [Denotes, hn, Nat.zero_mul] at h
    exact (Nat.mul_eq_zero.1 h).resolve_right (hpower _)

theorem Denotes.coefficient_pos_iff {d : Decimal} {n : Nat} (h : d.Denotes n) : 0 < d.coefficient ↔ 0 < n := by
  rw [Nat.pos_iff_ne_zero, Nat.pos_iff_ne_zero, Ne, h.coefficient_eq_zero_iff]

/-- The leading digit of a decimal stands where that of the number does. -/
theorem Denotes.place {d : Decimal} {n : Nat} (h : d.Denotes n) (hn : 0 < n) :
    (digitsOf d.coefficient).length + d.exponent = (digitsOf n).length := by
  have hlength := congrArg (fun k => (digitsOf k).length) h
  simp only [length_digitsOf_mul_tenTo (h.coefficient_pos_iff.2 hn), length_digitsOf_mul_tenTo hn] at hlength
  omega

end Decimal

namespace FiniteDouble

/-- A decimal that denotes a whole number held by a double is read as that double. -/
theorem Holds.ofDecimal? {x : FiniteDouble} {n : Nat} (hx : x.Holds n) (hn : n < tenTo 400) {d : Decimal}
    (hd : d.Denotes n) (hnegative : d.negative = x.negative) : ofDecimal? d = some x := by
  unfold FiniteDouble.ofDecimal?
  rw [hnegative]
  rcases Nat.eq_zero_or_pos n with rfl | hpos
  · rw [if_pos (hd.coefficient_eq_zero_iff.2 rfl), (holds_zero x.negative).eq hx rfl]
  · have hplace := hd.place hpos
    have hlow := Decimal.length_digitsOf_pos n
    have hhigh := Decimal.length_digitsOf_le (by omega) hn
    rw [if_neg (hd.coefficient_pos_iff.2 hpos).ne']
    simp only [hplace]
    rw [if_neg (by omega), if_neg (by omega)]
    split_ifs with hexponent
    · refine hx.ofRatio? Nat.one_pos ?_
      rw [hd, Int.toNat_eq_zero.2 (by omega), tenTo_zero]
    · refine hx.ofRatio? (tenTo_pos _) ?_
      rw [← hd, Int.toNat_eq_zero.2 (by omega), tenTo_zero, Nat.mul_one]

end FiniteDouble

end Lineage
