import Lineage.Proofs.Decimal.Shortest
import Lineage.Proofs.Json.Leading
import Lineage.Proofs.Json.ReadBack

/-!
# JSON numbers that are read and written exactly

A numeral in JSON is a spelling of a decimal. Where a double holds its digits and it denotes a whole number
below `10 ^ 15`, it is read as that number; and every number that is such a whole number is written as a
spelling of it.

Main results:
* `Json.Numeral.exists_spelling`: a numeral is a spelling of the decimal that it denotes.
* `Json.exists_parse?_eq`: where a double holds the digits, it is read as the number that it denotes.
* `Json.Number.exists_spelling`: a whole number below `10 ^ 15` is written as a spelling of it.
-/

namespace Lineage

namespace Json

/-! ## Numerals as spellings -/

theorem spanDigits_spec (cs : List Char) :
    (Decimal.spanDigits cs).1 ++ (Decimal.spanDigits cs).2 = cs ∧
      ∀ c ∈ (Decimal.spanDigits cs).1, c.isDigit = true := by
  induction cs with
  | nil => exact ⟨rfl, nofun⟩
  | cons c cs ih =>
    rw [spanDigits_cons]
    split_ifs with hc
    · exact ⟨congrArg (c :: ·) ih.1, List.forall_mem_cons.2 ⟨hc, ih.2⟩⟩
    · exact ⟨rfl, nofun⟩

theorem wholePart?_eq_some {cs digits rest : List Char} (h : wholePart? cs = some (digits, rest)) :
    digits ++ rest = cs ∧ digits ≠ [] ∧ ∀ c ∈ digits, c.isDigit = true := by
  obtain ⟨happend, hdigits⟩ := spanDigits_spec cs
  have hspan : Decimal.spanDigits cs = (digits, rest) ∧ digits ≠ [] := by
    unfold wholePart? at h
    generalize Decimal.spanDigits cs = parts at h
    obtain ⟨taken, left⟩ := parts
    simp only at h
    split at h <;> cases h
    · exact ⟨rfl, List.cons_ne_nil _ _⟩
    · rename_i hne _ _
      exact ⟨rfl, fun hnil => hne hnil⟩
  rw [hspan.1] at happend hdigits
  exact ⟨happend, hspan.2, hdigits⟩

theorem fractionPart?_eq_some {cs digits rest : List Char} (h : fractionPart? cs = some (digits, rest)) :
    ∃ fraction : Option (List Char), pointText fraction ++ rest = cs ∧ fraction.getD [] = digits ∧
      ∀ c ∈ digits, c.isDigit = true := by
  unfold fractionPart? at h
  split at h
  · rename_i cs
    obtain ⟨happend, hdigits⟩ := spanDigits_spec cs
    generalize Decimal.spanDigits cs = parts at *
    obtain ⟨taken, left⟩ := parts
    simp only at h
    split_ifs at h
    cases h
    exact ⟨some _, congrArg ('.' :: ·) happend, rfl, hdigits⟩
  · cases h
    exact ⟨none, rfl, rfl, nofun⟩

theorem exponentDigits?_eq_some {negative : Bool} {cs : List Char} {e : ℤ}
    (h : exponentDigits? negative cs = some (e, [])) :
    cs ≠ [] ∧ (∀ c ∈ cs, c.isDigit = true) ∧
      e = if negative then -(Decimal.ofDigits cs : ℤ) else Decimal.ofDigits cs := by
  obtain ⟨happend, hdigits⟩ := spanDigits_spec cs
  unfold exponentDigits? at h
  generalize Decimal.spanDigits cs = parts at *
  obtain ⟨taken, left⟩ := parts
  simp only at h
  split at h
  · cases h
  · rename_i hempty
    cases h
    rw [List.append_nil] at happend
    subst happend
    exact ⟨fun hnil => hempty (List.isEmpty_iff.2 hnil), hdigits, rfl⟩

/-- What is read as a signed run of digits is a sign and digits. -/
theorem signedDigits?_eq_some {cs : List Char} {e : ℤ} (h : signedDigits? cs = some (e, [])) (upper : Bool) :
    ∃ w : WrittenExponent, w.upper = upper ∧ signText w.sign ++ w.digits = cs ∧ w.value = e := by
  unfold signedDigits? at h
  split at h <;> obtain ⟨hne, hdigits, rfl⟩ := exponentDigits?_eq_some h
  · exact ⟨⟨upper, some false, _, hdigits, hne⟩, rfl, rfl, rfl⟩
  · exact ⟨⟨upper, some true, _, hdigits, hne⟩, rfl, rfl, rfl⟩
  · exact ⟨⟨upper, none, _, hdigits, hne⟩, rfl, rfl, rfl⟩

theorem exponentPart?_eq_some {cs : List Char} {e : ℤ} (h : Decimal.exponentPart? cs = some (e, [])) :
    ∃ w, exponentText w = cs ∧ exponentValue w = e := by
  cases cs with
  | nil =>
    cases h
    exact ⟨none, rfl, rfl⟩
  | cons c cs =>
    rw [exponentPart?_cons] at h
    split at h
    · rename_i hmark
      obtain ⟨w, hupper, hcs, hvalue⟩ := signedDigits?_eq_some h (c == 'E')
      refine ⟨some w, ?_, hvalue⟩
      rw [exponentText, WrittenExponent.text, hupper, hcs]
      have hc : c = 'e' ∨ c = 'E' := by simpa [Decimal.startsExponent] using hmark
      rcases hc with rfl | rfl <;> rfl
    · cases h

/-- What is read as a numeral is a spelling of the decimal that the numeral denotes. -/
theorem Numeral.exists_spelling_of_unsigned (negative : Bool) {cs : List Char} {n : Numeral}
    (h : unsignedNumeral? negative cs = some (n, [])) :
    ∃ p : Spelling, p.text = signText (if negative then some true else none) ++ cs ∧ p.decimal = n.decimal ∧
      p.whole ++ p.fraction.getD [] = n.whole ++ n.fraction := by
  unfold unsignedNumeral? at h
  obtain ⟨⟨whole, afterWhole⟩, hwhole, h⟩ := Option.bind_eq_some_iff.1 h
  obtain ⟨⟨digits, afterFraction⟩, hfraction, h⟩ := Option.bind_eq_some_iff.1 h
  obtain ⟨⟨e, rest⟩, hexponent, h⟩ := Option.bind_eq_some_iff.1 h
  cases h
  obtain ⟨rfl, hne, hdigits⟩ := wholePart?_eq_some hwhole
  obtain ⟨fraction, rfl, rfl, hfractionDigits⟩ := fractionPart?_eq_some hfraction
  obtain ⟨w, rfl, rfl⟩ := exponentPart?_eq_some hexponent
  refine ⟨⟨if negative then some true else none, whole, fraction, w, ?_, ?_⟩, rfl, ?_, rfl⟩
  · exact fun c hc => (List.mem_append.1 hc).elim (hdigits c) (hfractionDigits c)
  · exact fun hnil => hne (List.append_eq_nil_iff.1 hnil).1
  · have hscale : (if Decimal.startsExponent (exponentText w) then some (exponentValue w) else none).getD 0 =
        exponentValue w := by
      cases w with
      | none => rfl
      | some w => rw [exponentText, if_pos w.startsExponent_text, Option.getD_some]
    unfold Spelling.decimal Numeral.decimal
    simp only [hscale]
    cases negative <;> rfl

theorem Numeral.exists_spelling {cs : List Char} {n : Numeral} (h : numeral? cs = some (n, [])) :
    ∃ p : Spelling, p.text = cs ∧ p.decimal = n.decimal ∧
      p.whole ++ p.fraction.getD [] = n.whole ++ n.fraction := by
  obtain ⟨c, cs, rfl, -⟩ := startsNumber_of_numeral? h
  by_cases hminus : c = '-'
  · subst hminus
    exact exists_spelling_of_unsigned true h
  · rw [numeral?_cons hminus] at h
    exact exists_spelling_of_unsigned false h

/-! ## Reading -/

namespace Numeral

variable {n : Numeral}

theorem toInt_eq (hplain : n.isPlain = true) {z : ℤ} (hz : n.decimal.value = z) : n.toInt = z := by
  obtain ⟨hfraction, hexponent⟩ := Bool.and_eq_true_iff.1 hplain
  have hdecimal : n.decimal = ⟨n.negative, Decimal.ofDigits n.whole, 0⟩ := by
    rw [decimal, List.isEmpty_iff.1 hfraction, Option.isNone_iff_eq_none.1 hexponent, Decimal.ofParts,
      List.append_nil]
    rfl
  obtain ⟨hdenotes, hsign⟩ := Decimal.value_eq_iff.1 hz
  rw [hdecimal] at hdenotes hsign
  have hdigits : Decimal.ofDigits n.whole = z.natAbs := by
    rw [← (Decimal.denotes_of_nonneg (le_refl _)).1 hdenotes]
    exact (Nat.mul_one _).symm
  rw [toInt, hdigits]
  exact hsign.symm

end Numeral

/-- The number that a number in JSON is. -/
def Number.value : Number → ℚ
  | .whole n => n
  | .real x => x.value

/-- A numeral whose digits a double holds is read as the number that it denotes. -/
theorem Number.exists_ofNumeral? {n : Numeral} (hdigits : ∀ c ∈ n.whole ++ n.fraction, c.isDigit = true)
    (hexact : n.HeldExactly) {z : ℤ} (hz : n.decimal.value = z) (hlt : z.natAbs < tenTo 15) :
    ∃ v, ofNumeral? n = some v ∧ v.value = z := by
  unfold ofNumeral?
  split_ifs with hplain
  · simp only [Bool.and_eq_true] at hplain
    rw [Numeral.toInt_eq hplain.1.1 hz]
    exact ⟨_, rfl, rfl⟩
  · obtain ⟨hdenotes, hsign⟩ := Decimal.value_eq_iff.1 hz
    obtain ⟨w, hnegative, hw, hvalue⟩ :=
      FiniteDouble.exists_value_eq (Nat.lt_trans hlt (by decide : tenTo 15 < twoTo 53)) hsign
    rw [Numeral.toDouble?_eq hdigits hexact hdenotes hlt hw hnegative]
    exact ⟨_, rfl, hvalue⟩

/-- So the text of such a numeral is read as the number, and it is a spelling of that number, too. -/
theorem exists_parse?_eq {s : String} {n : Numeral} (h : numeral? s.toList = some (n, [])) (hexact : n.HeldExactly)
    {z : ℤ} (hz : n.decimal.value = z) (hlt : z.natAbs < tenTo 15) :
    (∃ p : Spelling, p.text = s.toList ∧ p.decimal.value = z) ∧
      ∃ v : Number, parse? s = some (.num v) ∧ v.value = z := by
  obtain ⟨p, hp, hdecimal, hdigits⟩ := Numeral.exists_spelling h
  obtain ⟨v, hv, hvalue⟩ := Number.exists_ofNumeral? (hdigits ▸ p.isDigit) hexact hz hlt
  refine ⟨⟨p, hp, hdecimal ▸ hz⟩, v, ?_, hvalue⟩
  obtain ⟨c, cs, hcs, hc⟩ := startsNumber_of_numeral? h
  have hread := number?_eq_some h hv
  rw [hcs] at hread
  unfold parse? parseFor?
  simp only [hcs, value?_num Focus.whole_kept hc hread]
  rfl

/-! ## Writing -/

/-- The digits of a whole number, with a sign and a fraction of zeros or without, are a spelling of it. -/
theorem exists_spelling_digitsOf {z : ℤ} {negative : Bool}
    (hsign : z = if negative then -(z.natAbs : ℤ) else z.natAbs) (fraction : Option (List Char)) (k : ℕ)
    (hzeros : fraction.getD [] = List.replicate k '0') :
    ∃ p : Spelling, p.text =
        (if negative then ['-'] else []) ++ (Decimal.digitsOf z.natAbs ++ pointText fraction) ∧
      p.decimal.value = z := by
  have hdigits : ∀ c ∈ Decimal.digitsOf z.natAbs ++ fraction.getD [], c.isDigit = true := by
    intro c hc
    rw [hzeros, List.mem_append] at hc
    rcases hc with hc | hc
    · exact isDigit_of_mem_digitsOf hc
    · rw [List.eq_of_mem_replicate hc]
      rfl
  have hne : Decimal.digitsOf z.natAbs ++ fraction.getD [] ≠ [] :=
    fun h => Nat.toDigits_ne_nil (List.append_eq_nil_iff.1 h).1
  refine ⟨⟨if negative then some true else none, _, fraction, none, hdigits, hne⟩, ?_, ?_⟩
  · unfold Spelling.text
    rw [exponentText, List.append_nil]
    cases negative <;> rfl
  · refine Decimal.value_eq_iff.2 ⟨?_, by cases negative <;> exact hsign⟩
    have hexponent : exponentValue none - (fraction.getD []).length = -(k : ℤ) := by
      rw [hzeros, List.length_replicate]
      exact zero_sub _
    have hdigits : Decimal.ofDigits (Decimal.digitsOf z.natAbs ++ fraction.getD []) = z.natAbs * tenTo k := by
      rw [hzeros, Decimal.ofDigits_append_zeros, ofDigits_digitsOf]
    unfold Spelling.decimal Decimal.ofParts Decimal.Denotes
    simp only [hexponent, hdigits, neg_neg, Int.toNat_natCast, Int.toNat_neg_natCast, tenTo_zero, Nat.mul_one]

/-- A whole number below `10 ^ 15` is written as a spelling of it, also where it is a double. -/
theorem Number.exists_spelling {v : Number} {z : ℤ} (hv : v.value = z) (hlt : z.natAbs < tenTo 15) :
    ∃ p : Spelling, p.text = v.text ∧ p.decimal.value = z := by
  cases v with
  | whole n =>
    obtain rfl : n = z := Int.cast_inj.1 hv
    have hsign : n = if decide (n < 0) then -(n.natAbs : ℤ) else n.natAbs := by
      simp only [decide_eq_true_eq]
      split_ifs <;> omega
    obtain ⟨p, hp, hvalue⟩ := exists_spelling_digitsOf hsign none 0 rfl
    refine ⟨p, hp.trans ?_, hvalue⟩
    rw [text, pointText, List.append_nil]
    by_cases hneg : n < 0 <;> simp [hneg]
  | real x =>
    obtain ⟨hx, hsign⟩ := FiniteDouble.value_eq_iff.1 hv
    rw [text, realText_eq hx hlt]
    exact exists_spelling_digitsOf hsign (some ['0']) 1 rfl

end Json

end Lineage
