import Lineage.Decimal.Shortest
import Lineage.Json.Printer
import Lineage.Proofs.Decimal.Exact

/-!
# The digits of a whole number's double

A double that holds a whole number below `10 ^ 15` is printed with the digits of that number. Every
decimal that is tried before them has fewer digits and denotes a whole number too, and so it reads
back as the double only if it denotes the same number.

Main results:
* `FiniteDouble.Holds.shortest`: the shortest decimal denotes the number, without a fraction.
* `Json.realText_eq`: the text is a sign, the digits of the number and a fraction of zero.
-/

namespace Lineage

namespace FiniteDouble

variable {x : FiniteDouble} {n : Nat}

theorem withoutTrailingZeros_denotes {d : Decimal} (hexponent : 0 ≤ d.exponent) (hd : d.Denotes n) :
    (withoutTrailingZeros d).Denotes n ∧ 0 ≤ (withoutTrailingZeros d).exponent := by
  have hdvd := Decimal.tenTo_dvd_of_trailing d.coefficient
  simp only [withoutTrailingZeros]
  generalize ((Decimal.digitsOf d.coefficient).reverse.takeWhile (· == '0')).length = zeros at hdvd ⊢
  have hsum : 0 ≤ d.exponent + zeros := by omega
  refine ⟨(Decimal.denotes_of_nonneg hsum).2 ?_, hsum⟩
  rw [← (Decimal.denotes_of_nonneg hexponent).1 hd, Int.toNat_add hexponent (by omega), Int.toNat_natCast,
    Nat.add_comm, tenTo_add, ← Nat.mul_assoc, Nat.div_mul_cancel hdvd]

/-! ## The search -/

theorem Holds.leadingPlace (hx : x.Holds n) (hn : 0 < n) :
    FiniteDouble.leadingPlace x.units = (Decimal.digitsOf n).length := by
  rw [FiniteDouble.leadingPlace, hx, Nat.mul_right_comm, Nat.mul_div_cancel _ unitsOfOne_pos,
    Decimal.length_digitsOf_mul_tenTo hn]
  omega

/-- The candidates of an exponent without a sign: the numbers on its grid next to the double. -/
theorem Holds.onGrid? (hx : x.Holds n) (k : Nat) :
    x.onGrid? k = [⟨x.negative, n / tenTo k, k⟩, ⟨x.negative, n / tenTo k + 1, k⟩].find? x.readsAs ∨
      x.onGrid? k = [⟨x.negative, n / tenTo k + 1, k⟩, ⟨x.negative, n / tenTo k, k⟩].find? x.readsAs := by
  have hscaled : scaled x.units k = (n * unitsOfOne, unitsOfOne * tenTo k) := by
    rw [scaled, if_pos (Int.natCast_nonneg k), hx, Int.toNat_natCast]
  have hquotient : n * unitsOfOne / (unitsOfOne * tenTo k) = n / tenTo k := by
    rw [Nat.mul_comm n, Nat.mul_div_mul_left _ _ unitsOfOne_pos]
  simp only [FiniteDouble.onGrid?, hscaled, hquotient]
  split_ifs
  · exact .inl rfl
  · exact .inr rfl

theorem Holds.onGrid?_eq_some (hx : x.Holds n) {k : Nat} {d : Decimal} (h : x.onGrid? k = some d) :
    x.readsAs d = true ∧ d.negative = x.negative ∧ d.exponent = k ∧ d.coefficient ≤ n / tenTo k + 1 := by
  have hcandidate : d = ⟨x.negative, n / tenTo k, k⟩ ∨ d = ⟨x.negative, n / tenTo k + 1, k⟩ := by
    rcases hx.onGrid? k with heq | heq <;> rw [heq] at h
    · simpa using List.mem_of_find?_eq_some h
    · simpa [or_comm] using List.mem_of_find?_eq_some h
  have hreads : x.readsAs d = true := by
    rcases hx.onGrid? k with heq | heq <;> rw [heq] at h <;> exact List.find?_some h
  rcases hcandidate with rfl | rfl
  · exact ⟨hreads, rfl, rfl, Nat.le_succ _⟩
  · exact ⟨hreads, rfl, rfl, le_refl _⟩

/-- A whole number that reads back as the double is the number it holds. -/
theorem Holds.denotes_of_readsAs (hx : x.Holds n) {d : Decimal} {m : Nat} (hd : d.Denotes m) (hm : m < twoTo 53)
    (h : x.readsAs d = true) : d.Denotes n := by
  obtain ⟨y, hnegative, hy⟩ := exists_holds d.negative hm (Nat.zero_le 900)
  rw [twoTo_zero, Nat.mul_one] at hy
  have hread := hy.ofDecimal? (Nat.lt_trans hm twoTo_lt_tenTo) hd hnegative.symm
  rw [readsAs, hread, beq_iff_eq, Option.some.injEq] at h
  exact (h ▸ hy).unique hx ▸ hd

/-- The grid of the leading digits has no number as large as twice the one that is held. -/
theorem Holds.denotes_of_onGrid? (hx : x.Holds n) (hn : n < tenTo 15) {k : Nat} (hk : tenTo k ≤ n) {d : Decimal}
    (h : x.onGrid? k = some d) : d.Denotes n := by
  obtain ⟨hreads, -, hexponent, hcoefficient⟩ := hx.onGrid?_eq_some h
  have hdenotes : d.Denotes (d.coefficient * tenTo k) := by
    rw [Decimal.denotes_of_nonneg (by omega), hexponent, Int.toNat_natCast]
  have hle : d.coefficient * tenTo k ≤ n + n := calc
    d.coefficient * tenTo k ≤ (n / tenTo k + 1) * tenTo k := Nat.mul_le_mul_right _ hcoefficient
    _ = n / tenTo k * tenTo k + tenTo k := Nat.succ_mul _ _
    _ ≤ n + n := Nat.add_le_add (Nat.div_mul_le_self _ _) hk
  have hbound : 2 * tenTo 15 < twoTo 53 := by decide
  exact hx.denotes_of_readsAs hdenotes (by omega) hreads

theorem Holds.isSome_onGrid?_zero (hx : x.Holds n) (hn : n < tenTo 15) : (x.onGrid? 0).isSome = true := by
  have hreads : x.readsAs ⟨x.negative, n / tenTo 0, (0 : Nat)⟩ = true := by
    have hlarge : n < tenTo 400 := Nat.lt_of_lt_of_le hn (tenTo_le_tenTo (by omega))
    have hdenotes : Decimal.Denotes ⟨x.negative, n / tenTo 0, (0 : Nat)⟩ n := by
      rw [Decimal.denotes_of_nonneg (le_refl _)]
      simp
    rw [readsAs, hx.ofDecimal? hlarge hdenotes rfl, beq_self_eq_true]
  rcases hx.onGrid? 0 with heq | heq <;> rw [Nat.cast_zero] at heq <;> rw [heq, List.find?_isSome]
  · exact ⟨_, List.mem_cons_self, hreads⟩
  · exact ⟨_, List.mem_cons_of_mem _ List.mem_cons_self, hreads⟩

/-- The search ends at the last digit of the number at the latest. -/
theorem Holds.findSome?_onGrid? (hx : x.Holds n) (hn : n < tenTo 15) :
    ∃ k < (Decimal.digitsOf n).length, ∃ d, x.onGrid? k = some d ∧
      ((List.range 17).findSome? fun (k : Nat) => x.onGrid? ((Decimal.digitsOf n).length - (k + 1))) = some d := by
  have hlow := Decimal.length_digitsOf_pos n
  have hhigh := Decimal.length_digitsOf_le (by omega) hn
  generalize (Decimal.digitsOf n).length = places at hlow hhigh ⊢
  have hrange : List.range 17 = List.range places ++ (List.range (17 - places)).map (places + ·) := by
    rw [← List.range_add, Nat.add_sub_cancel' (by omega)]
  have hlast : ((places : ℤ) - ((places - 1 : Nat) + 1)) = 0 := by omega
  have hsome : ((List.range places).findSome? fun (k : Nat) => x.onGrid? (places - (k + 1))).isSome = true := by
    rw [List.findSome?_isSome_iff]
    exact ⟨places - 1, List.mem_range.2 (by omega), by rw [hlast]; exact hx.isSome_onGrid?_zero hn⟩
  obtain ⟨d, hd⟩ := Option.isSome_iff_exists.1 hsome
  obtain ⟨k, hk, hkd⟩ := List.exists_of_findSome?_eq_some hd
  have hlt : k < places := List.mem_range.1 hk
  refine ⟨places - (k + 1), by omega, d, ?_, ?_⟩
  · rwa [Nat.cast_sub hlt]
  · rw [hrange, List.findSome?_append, hd, Option.some_or]

/-- The shortest decimal of a double that holds a whole number below `10 ^ 15` is that number. -/
theorem Holds.shortest (hx : x.Holds n) (hn : n < tenTo 15) :
    x.shortest.Denotes n ∧ 0 ≤ x.shortest.exponent ∧ x.shortest.negative = x.negative := by
  unfold FiniteDouble.shortest
  rcases Nat.eq_zero_or_pos n with rfl | hpos
  · rw [if_pos (by rw [hx, Nat.zero_mul])]
    exact ⟨rfl, le_refl _, rfl⟩
  · obtain ⟨k, hk, d, hd, hfound⟩ := hx.findSome?_onGrid? hn
    have hdenotes := hx.denotes_of_onGrid? hn (Decimal.tenTo_le_of_lt_length hpos hk) hd
    obtain ⟨-, hnegative, hexponent, -⟩ := hx.onGrid?_eq_some hd
    obtain ⟨hstripped, hnonneg⟩ := withoutTrailingZeros_denotes (by omega) hdenotes
    rw [if_neg (by rw [hx]; exact (Nat.mul_pos hpos unitsOfOne_pos).ne')]
    simp only [hx.leadingPlace hpos, hfound, Option.getD_some]
    exact ⟨hstripped, hnonneg, hnegative⟩

end FiniteDouble

/-! ## The text -/

theorem digitsOf_append_zeros {d : Decimal} {n : Nat} (hd : d.Denotes n) (hexponent : 0 ≤ d.exponent) (hn : 0 < n) :
    Decimal.digitsOf d.coefficient ++ List.replicate d.exponent.toNat '0' = Decimal.digitsOf n := by
  rw [← Decimal.digitsOf_mul_tenTo (hd.coefficient_pos_iff.2 hn), (Decimal.denotes_of_nonneg hexponent).1 hd]

/-- A double that holds a whole number below `10 ^ 15` is written with its digits and a fraction of zero. -/
theorem Json.realText_eq {x : FiniteDouble} {n : Nat} (hx : x.Holds n) (hn : n < tenTo 15) :
    Json.realText x = (if x.negative then ['-'] else []) ++ (Decimal.digitsOf n ++ ['.', '0']) := by
  obtain ⟨hdenotes, hexponent, hnegative⟩ := hx.shortest hn
  unfold Json.realText
  simp only [hnegative]
  congr 1
  rcases Nat.eq_zero_or_pos n with rfl | hpos
  · rw [if_pos (hdenotes.coefficient_eq_zero_iff.2 rfl)]
    rfl
  · have hplace := hdenotes.place hpos
    have hlow := Decimal.length_digitsOf_pos n
    have hhigh := Decimal.length_digitsOf_le (by omega) hn
    rw [if_neg (hdenotes.coefficient_pos_iff.2 hpos).ne', if_pos (by omega), if_pos hexponent,
      digitsOf_append_zeros hdenotes hexponent hpos]

end Lineage
