import Lineage.Proofs.Decimal.Spelling

/-!
# Numerals that are read exactly

The reader takes the digits of a numeral as far as they fit 64 bits, as a double, and scales that by a power
of ten. Each step rounds, but none changes anything where doubles hold the digits and the result: a
numeral that denotes a whole number below `10 ^ 15` has only zeros behind the digits that fit, and the
power of ten is a double.

Main results:
* `Json.Numeral.covers_leading_of_denotes`: behind the digits that fit there are zeros only, and the exponent
  counts them.
* `Json.Numeral.toDouble?_eq`: where a double holds these digits the numeral is read as what it denotes.
-/

namespace Lineage

/-! ## Scaling -/

namespace FiniteDouble

variable {x y w : FiniteDouble} {m n : Nat}

theorem Holds.mul? (hx : x.Holds m) (hy : y.Holds n) (hw : w.Holds (m * n))
    (hsign : w.negative = (x.negative != y.negative)) : x.mul? y = some w := by
  unfold FiniteDouble.mul?
  rw [← hsign]
  refine ofRatio?_eq w (Nat.mul_pos unitsOfOne_pos unitsOfOne_pos) ?_
  rw [hx, hy, hw]
  ring

theorem Holds.div? (hx : x.Holds (m * n)) (hy : y.Holds n) (hn : 0 < n) (hw : w.Holds m)
    (hsign : w.negative = (x.negative != y.negative)) : x.div? y = some w := by
  unfold FiniteDouble.div?
  rw [← hsign]
  refine ofRatio?_eq w (by rw [hy]; exact Nat.mul_pos hn unitsOfOne_pos) ?_
  rw [hx, hy, hw]
  ring

/-- The powers of ten up to this one are doubles: the odd part has 53 binary digits at most. -/
theorem exists_powerOfTen? {places : Nat} (h : places ≤ 22) :
    ∃ y, powerOfTen? places = some y ∧ y.negative = false ∧ y.Holds (tenTo places) := by
  have hodd : 5 ^ places < twoTo 53 :=
    Nat.lt_of_le_of_lt (Nat.pow_le_pow_right (by omega) h) (by decide)
  obtain ⟨y, hnegative, hy⟩ := exists_holds false hodd (by omega : places ≤ 900)
  have hproduct : 5 ^ places * twoTo places = tenTo places := by rw [twoTo_eq, tenTo_eq, ← Nat.mul_pow]
  rw [hproduct] at hy
  have hlarge : tenTo places < tenTo 400 := tenTo_lt_tenTo (by omega)
  refine ⟨y, hy.ofDecimal? hlarge ?_ hnegative.symm, hnegative, hy⟩
  rw [Decimal.denotes_of_nonneg (Int.natCast_nonneg _), Int.toNat_natCast, Nat.one_mul]

/-- Scaling by a small power of ten is exact where the number and the result are doubles. -/
theorem Holds.scale? (hx : x.Holds m) (hw : w.Holds n) (hsign : w.negative = x.negative) {exponent : ℤ}
    (hd : Decimal.Denotes ⟨x.negative, m, exponent⟩ n) (hexponent : 0 < m → exponent.natAbs ≤ 22) :
    x.scale? exponent = some w := by
  unfold FiniteDouble.scale?
  rcases Nat.eq_zero_or_pos m with rfl | hpos
  · rw [if_pos (by rw [hx, Nat.zero_mul]), hx.eq (hd.coefficient_eq_zero_iff.1 rfl ▸ hw) hsign.symm]
  · rw [if_neg (by rw [hx]; exact (Nat.mul_pos hpos unitsOfOne_pos).ne')]
    have hbound := hexponent hpos
    split_ifs with hnonneg
    · obtain ⟨y, hpower, hpositive, hy⟩ := exists_powerOfTen? (by omega : exponent.toNat ≤ 22)
      have hproduct : m * tenTo exponent.toNat = n := (Decimal.denotes_of_nonneg hnonneg).1 hd
      rw [hpower, Option.bind_some]
      exact hx.mul? hy (hproduct ▸ hw) (by rw [hsign, hpositive, Bool.bne_false])
    · obtain ⟨y, hpower, hpositive, hy⟩ := exists_powerOfTen? (by omega : (-exponent).toNat ≤ 22)
      have hproduct : m = n * tenTo (-exponent).toNat := by
        have hscaled : m * tenTo exponent.toNat = n * tenTo (-exponent).toNat := hd
        rw [← hscaled, Int.toNat_eq_zero.2 (by omega), tenTo_zero, Nat.mul_one]
      rw [shiftRight?, if_pos (by unfold maxPlaces; omega), hpower, Option.bind_some]
      exact (hproduct ▸ hx).div? hy (tenTo_pos _) hw (by rw [hsign, hpositive, Bool.bne_false])

end FiniteDouble

/-! ## Leading digits -/

namespace Json

namespace Leading

variable {l : Leading}

theorem push?_of_lt {c : Char} {cs : List Char}
    (h : Decimal.appendDigits (10 * l.significand + Decimal.digitValue c) cs < twoTo 64) :
    l.push? c = some (10 * l.significand + Decimal.digitValue c) := by
  unfold push?
  exact if_pos (Nat.lt_of_le_of_lt (Decimal.le_appendDigits _ cs) h)

/-- Digits that all fit are all taken. -/
theorem takeWhole_append {digits : List Char} (h : Decimal.appendDigits l.significand digits < twoTo 64)
    (more : List Char) :
    l.takeWhole (digits ++ more) = takeWhole ⟨Decimal.appendDigits l.significand digits, l.exponent⟩ more := by
  induction digits generalizing l with
  | nil => rfl
  | cons c cs ih =>
    rw [Decimal.appendDigits_cons] at h ⊢
    rw [List.cons_append, takeWhole, push?_of_lt h]
    simp only
    rw [ih h]

theorem takeFraction_append {digits : List Char} (h : Decimal.appendDigits l.significand digits < twoTo 64)
    (more : List Char) :
    l.takeFraction (digits ++ more) =
      takeFraction ⟨Decimal.appendDigits l.significand digits, l.exponent - digits.length⟩ more := by
  induction digits generalizing l with
  | nil => rw [List.nil_append, List.length_nil, Nat.cast_zero, sub_zero]; rfl
  | cons c cs ih =>
    rw [Decimal.appendDigits_cons] at h ⊢
    rw [List.cons_append, takeFraction, push?_of_lt h]
    simp only
    rw [ih h, List.length_cons]
    simp only
    congr 2
    push_cast
    ring

/-- No further zero fits. -/
def Full (l : Leading) : Prop := twoTo 64 ≤ 10 * l.significand

theorem Full.push? (h : l.Full) : l.push? '0' = none := by
  unfold Leading.push?
  exact if_neg (Nat.not_lt.2 h)

theorem push?_of_not_full (h : ¬ l.Full) : l.push? '0' = some (10 * l.significand) := by
  unfold Leading.push?
  exact if_pos (Nat.lt_of_not_le h)

theorem Full.takeFraction_zeros (h : l.Full) (k : Nat) : l.takeFraction (List.replicate k '0') = l := by
  cases k with
  | zero => rfl
  | succ k => rw [List.replicate_succ, takeFraction, h.push?]

/-- The digits taken are those of `n · 10 ^ e` but for zeros at the end, which the exponent counts. -/
structure Covers (l : Leading) (n : Nat) (e : ℤ) : Prop where
  lt : l.significand < twoTo 64
  exists_zeros : ∃ zeros : Nat, n = l.significand * tenTo zeros ∧ l.exponent = e + zeros

theorem covers_self (hl : l.significand < twoTo 64) : l.Covers l.significand l.exponent :=
  ⟨hl, 0, (Nat.mul_one _).symm, (Int.add_zero _).symm⟩

/-- By induction on the zeros: if one does not fit, neither does another behind it. -/
theorem takeWhole_zeros (hl : l.significand < twoTo 64) (k : Nat) :
    (l.takeWhole (List.replicate k '0')).Covers (l.significand * tenTo k) l.exponent ∧
      ((l.takeWhole (List.replicate k '0')).Full ∨
        l.takeWhole (List.replicate k '0') = ⟨l.significand * tenTo k, l.exponent⟩) := by
  induction k generalizing l with
  | zero =>
    rw [tenTo_zero, Nat.mul_one]
    exact ⟨covers_self hl, .inr rfl⟩
  | succ k ih =>
    rw [List.replicate_succ, takeWhole]
    by_cases hfull : l.Full
    · rw [hfull.push?, List.length_replicate]
      exact ⟨⟨hl, k + 1, rfl, rfl⟩, .inl hfull⟩
    · have hstep : l.significand * tenTo (k + 1) = 10 * l.significand * tenTo k := by
        rw [tenTo_succ]
        ring
      rw [push?_of_not_full hfull, hstep]
      exact @ih ⟨10 * l.significand, l.exponent⟩ (Nat.lt_of_not_le hfull)

theorem takeFraction_zeros (hl : l.significand < twoTo 64) (k : Nat) :
    (l.takeFraction (List.replicate k '0')).Covers (l.significand * tenTo k) (l.exponent - k) := by
  induction k generalizing l with
  | zero =>
    rw [tenTo_zero, Nat.mul_one, Nat.cast_zero, sub_zero]
    exact covers_self hl
  | succ k ih =>
    by_cases hfull : l.Full
    · rw [hfull.takeFraction_zeros]
      exact ⟨hl, k + 1, rfl, (sub_add_cancel _ _).symm⟩
    · have hstep : l.significand * tenTo (k + 1) = 10 * l.significand * tenTo k := by
        rw [tenTo_succ]
        ring
      have hexponent : l.exponent - (k + 1 : Nat) = l.exponent - 1 - k := by
        push_cast
        ring
      rw [List.replicate_succ, takeFraction, push?_of_not_full hfull, hstep, hexponent]
      exact @ih ⟨10 * l.significand, l.exponent - 1⟩ (Nat.lt_of_not_le hfull)

/-- The point may stand among the zeros. -/
theorem takeFraction_takeWhole_zeros (hl : l.significand < twoTo 64) (j k : Nat) :
    ((l.takeWhole (List.replicate j '0')).takeFraction (List.replicate k '0')).Covers
      (l.significand * tenTo (j + k)) (l.exponent - k) := by
  obtain ⟨⟨hlt, zeros, hsignificand, hexponent⟩, hend⟩ := takeWhole_zeros hl j
  rw [tenTo_add, ← Nat.mul_assoc]
  rcases hend with hfull | hall
  · rw [hfull.takeFraction_zeros]
    refine ⟨hlt, zeros + k, ?_, ?_⟩
    · rw [hsignificand, tenTo_add, Nat.mul_assoc]
    · rw [hexponent]
      push_cast
      ring
  · rw [hall] at hlt ⊢
    exact takeFraction_zeros hlt k

end Leading

namespace Numeral

variable {n : Numeral}

/-- The decimal that a numeral denotes. -/
def decimal (n : Numeral) : Decimal := .ofParts n.negative n.whole n.fraction (n.exponent.getD 0)

theorem covers_leading {m : Nat} {e : ℤ}
    (h : ((({} : Leading).takeWhole n.whole).takeFraction n.fraction).Covers m (e - n.exponent.getD 0)) :
    n.leading.Covers m e := by
  obtain ⟨hlt, zeros, hsignificand, hexponent⟩ := h
  refine ⟨hlt, zeros, hsignificand, ?_⟩
  simp only [leading, hexponent]
  ring

/-- Where only zeros stand behind digits that fit, these digits are taken with the zeros that fit, too. -/
theorem covers_leading_of_zeros {front : List Char} {k : Nat}
    (hdigits : n.whole ++ n.fraction = front ++ List.replicate k '0') (hfront : Decimal.ofDigits front < twoTo 64) :
    n.leading.Covers n.decimal.coefficient n.decimal.exponent := by
  have hexponent : n.decimal.exponent - n.exponent.getD 0 = 0 - (n.fraction.length : ℤ) := by
    rw [decimal, Decimal.ofParts]
    ring
  have hcoefficient : n.decimal.coefficient = Decimal.ofDigits front * tenTo k := by
    rw [← Decimal.ofDigits_append_zeros, ← hdigits]
    rfl
  refine covers_leading ?_
  rw [hexponent, hcoefficient]
  rcases List.append_eq_append_iff.1 hdigits with ⟨more, rfl, hfraction⟩ | ⟨zeros, hwhole, hzeros⟩
  -- The point stands before the zeros.
  · rw [Decimal.ofDigits_eq, Decimal.appendDigits_append] at hfront ⊢
    have htaken : ({} : Leading).takeWhole n.whole = ⟨Decimal.appendDigits 0 n.whole, 0⟩ := by
      have h := Leading.takeWhole_append (l := {}) (Nat.lt_of_le_of_lt (Decimal.le_appendDigits _ more) hfront) []
      rwa [List.append_nil] at h
    have hlength : 0 - (n.fraction.length : ℤ) = 0 - more.length - k := by
      rw [hfraction, List.length_append, List.length_replicate]
      push_cast
      ring
    rw [htaken, hlength, hfraction, Leading.takeFraction_append hfront]
    exact Leading.takeFraction_zeros hfront k
  -- The point stands among the zeros or behind them.
  · obtain ⟨hlength, hwholeZeros, hfractionZeros⟩ := List.append_eq_replicate_iff.1 hzeros.symm
    rw [hwhole, hwholeZeros, Leading.takeWhole_append (l := {}) hfront, ← hlength, hfractionZeros,
      List.length_replicate]
    exact Leading.takeFraction_takeWhole_zeros (l := ⟨Decimal.ofDigits front, 0⟩) hfront _ _

/-- Behind the digits that fit 64 bits there are zeros only, if the number is below `10 ^ 15`. -/
theorem covers_leading_of_denotes (hdigits : ∀ c ∈ n.whole ++ n.fraction, c.isDigit = true) {m : Nat}
    (hd : n.decimal.Denotes m) (hm : m < tenTo 15) : n.leading.Covers n.decimal.coefficient n.decimal.exponent := by
  have hfit : tenTo 15 < twoTo 64 := by decide
  by_cases hlt : n.decimal.coefficient < twoTo 64
  · exact covers_leading_of_zeros (k := 0) (List.append_nil _).symm hlt
  · have hneg : n.decimal.exponent < 0 := by
      by_contra hnonneg
      have hle : n.decimal.coefficient * 1 ≤ n.decimal.coefficient * tenTo n.decimal.exponent.toNat :=
        Nat.mul_le_mul_left _ (tenTo_pos _)
      rw [(Decimal.denotes_of_nonneg (by omega)).1 hd] at hle
      omega
    have hzeros : Decimal.ofDigits (n.whole ++ n.fraction) = m * tenTo (-n.decimal.exponent).toNat := by
      rw [← hd, Int.toNat_eq_zero.2 (by omega), tenTo_zero, Nat.mul_one]
      rfl
    obtain ⟨front, hsplit, hfront⟩ :=
      Decimal.exists_append_zeros hdigits (hd.coefficient_pos_iff.1 (by omega)) hzeros
    exact covers_leading_of_zeros hsplit (by omega)

/-- A double holds the digits that are taken: as many as fit 64 bits, read without the point. -/
def HeldExactly (n : Numeral) : Prop := ∃ x : FiniteDouble, x.Holds n.leading.significand

/-- Digits below `2 ^ 53` are held, with at most fifteen places that is. -/
theorem heldExactly_of_lt (h : n.decimal.coefficient < twoTo 53) : n.HeldExactly := by
  obtain ⟨-, zeros, hsplit, -⟩ := covers_leading_of_zeros (k := 0) (List.append_nil (n.whole ++ n.fraction)).symm
    (Nat.lt_trans h (by decide : twoTo 53 < twoTo 64))
  have hle : n.leading.significand * 1 ≤ n.leading.significand * tenTo zeros := Nat.mul_le_mul_left _ (tenTo_pos _)
  have hlt : n.leading.significand < twoTo 53 := by omega
  obtain ⟨x, -, hx⟩ := FiniteDouble.exists_holds false hlt (Nat.zero_le 900)
  rw [twoTo_zero, Nat.mul_one] at hx
  exact ⟨x, hx⟩

/-- The exponent of a decimal whose coefficient fits 64 bits, where it denotes a number below `10 ^ 15`. -/
theorem natAbs_exponent_le {d : Decimal} {m : Nat} (hd : d.Denotes m) (hm : m < tenTo 15)
    (hfit : d.coefficient < twoTo 64) (hpos : 0 < d.coefficient) : d.exponent.natAbs ≤ 22 := by
  have hplace := hd.place (hd.coefficient_pos_iff.1 hpos)
  have hlow := Decimal.length_digitsOf_pos m
  have hhigh := Decimal.length_digitsOf_le (by omega) hm
  have hcoefficient := Decimal.length_digitsOf_pos d.coefficient
  have hdigits : (Decimal.digitsOf d.coefficient).length ≤ 20 :=
    Decimal.length_digitsOf_le (by omega) (Nat.lt_trans hfit (by decide))
  omega

/-- A numeral whose digits a double holds is read without rounding, if it denotes a whole number below
`10 ^ 15`. -/
theorem toDouble?_eq (hdigits : ∀ c ∈ n.whole ++ n.fraction, c.isDigit = true) (hexact : n.HeldExactly) {m : Nat}
    (hd : n.decimal.Denotes m) (hm : m < tenTo 15) {w : FiniteDouble} (hw : w.Holds m)
    (hsign : w.negative = n.negative) : n.toDouble? = some w := by
  obtain ⟨hlt, zeros, hsignificand, hexponent⟩ := covers_leading_of_denotes hdigits hd hm
  have hleading : Decimal.Denotes ⟨n.negative, n.leading.significand, n.leading.exponent⟩ m := by
    rw [hexponent]
    exact hd.shift hsignificand n.negative
  obtain ⟨y, hy⟩ := hexact
  -- A double holds a number with either sign.
  let x : FiniteDouble := { y with negative := n.negative }
  have hx : x.Holds n.leading.significand := hy
  have hread : FiniteDouble.ofRatio? n.negative n.leading.significand 1 = some x :=
    hx.ofRatio? Nat.one_pos (Nat.mul_one _).symm
  unfold toDouble?
  rw [hread, Option.bind_eq_bind, Option.bind_some]
  exact hx.scale? hw hsign hleading (natAbs_exponent_le hleading hm hlt)

end Numeral

end Json

end Lineage
