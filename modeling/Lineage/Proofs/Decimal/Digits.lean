import Lineage.Proofs.Json.Scalar
import Mathlib.Data.List.Induction
import Mathlib.Data.List.TakeWhile
import Mathlib.Tactic.Ring
import Mathlib.Tactic.SplitIfs

/-!
# Digits and powers of ten

Zeros behind the digits of a number multiply it by a power of ten, and the zeros at the end of a number
that is such a product can be split off again.
-/

namespace Lineage

/-! ## Powers -/

theorem twoTo_eq (n : Nat) : twoTo n = 2 ^ n := rfl

theorem tenTo_eq (n : Nat) : tenTo n = 10 ^ n := rfl

@[simp] theorem twoTo_zero : twoTo 0 = 1 := rfl

@[simp] theorem tenTo_zero : tenTo 0 = 1 := rfl

theorem twoTo_pos (n : Nat) : 0 < twoTo n := Nat.two_pow_pos n

theorem tenTo_pos (n : Nat) : 0 < tenTo n := Nat.pow_pos (by omega)

theorem twoTo_add (m n : Nat) : twoTo (m + n) = twoTo m * twoTo n := Nat.pow_add 2 m n

theorem tenTo_add (m n : Nat) : tenTo (m + n) = tenTo m * tenTo n := Nat.pow_add 10 m n

theorem twoTo_succ (n : Nat) : twoTo (n + 1) = 2 * twoTo n := Nat.pow_succ'

theorem tenTo_succ (n : Nat) : tenTo (n + 1) = 10 * tenTo n := Nat.pow_succ'

theorem tenTo_le_tenTo {m n : Nat} (h : m ≤ n) : tenTo m ≤ tenTo n := Nat.pow_le_pow_right (by omega) h

theorem tenTo_lt_tenTo {m n : Nat} (h : m < n) : tenTo m < tenTo n := Nat.pow_lt_pow_right (by omega) h

theorem twoTo_lt_tenTo : twoTo 53 < tenTo 400 :=
  Nat.lt_of_lt_of_le (by decide : twoTo 53 < tenTo 16) (tenTo_le_tenTo (by omega))

namespace Decimal

/-! ## The digits of a number -/

theorem digitsOf_mul_tenTo {n : Nat} (hn : 0 < n) (k : Nat) :
    digitsOf (n * tenTo k) = digitsOf n ++ List.replicate k '0' := by
  induction k with
  | zero => rw [tenTo_zero, Nat.mul_one, List.replicate_zero, List.append_nil]
  | succ k ih =>
    have hpos : 0 < n * tenTo k := Nat.mul_pos hn (tenTo_pos k)
    have hstep : n * tenTo (k + 1) = n * tenTo k * 10 := by rw [tenTo_add, ← Nat.mul_assoc]; rfl
    rw [List.replicate_succ', ← List.append_assoc, ← ih, hstep]
    unfold digitsOf
    rw [Nat.toDigits_of_base_le (by omega) (by omega), Nat.mul_div_cancel _ (by omega), Nat.mul_mod_left]
    rfl

theorem length_digitsOf_mul_tenTo {n : Nat} (hn : 0 < n) (k : Nat) :
    (digitsOf (n * tenTo k)).length = (digitsOf n).length + k := by
  rw [digitsOf_mul_tenTo hn, List.length_append, List.length_replicate]

theorem length_digitsOf_pos (n : Nat) : 0 < (digitsOf n).length := Nat.length_toDigits_pos

theorem length_digitsOf_le {n k : Nat} (hk : 0 < k) (h : n < tenTo k) : (digitsOf n).length ≤ k :=
  (Nat.length_toDigits_le_iff (by omega) hk).2 h

theorem tenTo_le_of_lt_length {n k : Nat} (hn : 0 < n) (h : k < (digitsOf n).length) : tenTo k ≤ n := by
  by_contra hlt
  rcases Nat.eq_zero_or_pos k with rfl | hk
  · rw [tenTo_zero] at hlt
    omega
  · have hle := length_digitsOf_le hk (Nat.lt_of_not_le hlt)
    omega

/-! ## The number that digits denote -/

/-- The number with these digits behind it. -/
def appendDigits (n : Nat) (digits : List Char) : Nat :=
  digits.foldl (fun n c => 10 * n + digitValue c) n

theorem ofDigits_eq (digits : List Char) : ofDigits digits = appendDigits 0 digits := rfl

theorem appendDigits_cons (n : Nat) (c : Char) (digits : List Char) :
    appendDigits n (c :: digits) = appendDigits (10 * n + digitValue c) digits :=
  List.foldl_cons ..

theorem appendDigits_append (n : Nat) (digits more : List Char) :
    appendDigits n (digits ++ more) = appendDigits (appendDigits n digits) more :=
  List.foldl_append

theorem le_appendDigits (n : Nat) (digits : List Char) : n ≤ appendDigits n digits := by
  induction digits generalizing n with
  | nil => exact le_refl n
  | cons c digits ih =>
    have hstep := ih (10 * n + digitValue c)
    rw [appendDigits_cons]
    omega

theorem appendDigits_zeros (n k : Nat) : appendDigits n (List.replicate k '0') = n * tenTo k := by
  induction k generalizing n with
  | zero => exact (Nat.mul_one n).symm
  | succ k ih =>
    have hzero : digitValue '0' = 0 := rfl
    rw [List.replicate_succ, appendDigits_cons, ih, hzero, tenTo_succ]
    ring

theorem ofDigits_append_zeros (digits : List Char) (k : Nat) :
    ofDigits (digits ++ List.replicate k '0') = ofDigits digits * tenTo k := by
  rw [ofDigits_eq, appendDigits_append, appendDigits_zeros]
  rfl

theorem digitValue_lt {c : Char} (hc : c.isDigit = true) : digitValue c < 10 := by
  have hhigh : c.toNat ≤ '0'.toNat + 9 := (Char.isDigit_iff_toNat.1 hc).2
  unfold digitValue
  omega

theorem eq_zero_of_digitValue {c : Char} (hc : c.isDigit = true) (hzero : digitValue c = 0) : c = '0' := by
  have hlow : '0'.toNat ≤ c.toNat := (Char.isDigit_iff_toNat.1 hc).1
  unfold digitValue at hzero
  rw [← Char.ofNat_toNat c, (by omega : c.toNat = '0'.toNat), Char.ofNat_toNat]

/-- By induction on the zeros: the last digit is the remainder by ten. -/
theorem exists_append_zeros {digits : List Char} (hdigits : ∀ c ∈ digits, c.isDigit = true) {n k : Nat}
    (hn : 0 < n) (h : ofDigits digits = n * tenTo k) :
    ∃ front, digits = front ++ List.replicate k '0' ∧ ofDigits front = n := by
  induction k generalizing digits with
  | zero => exact ⟨digits, (List.append_nil digits).symm, h.trans (Nat.mul_one n)⟩
  | succ k ih =>
    rcases List.eq_nil_or_concat digits with rfl | ⟨init, c, rfl⟩
    · exact absurd h (Nat.mul_pos hn (tenTo_pos _)).ne
    · simp only [List.concat_eq_append] at hdigits h ⊢
      have hc := hdigits c (List.mem_append_right _ List.mem_cons_self)
      have hlt := digitValue_lt hc
      have hsplit : 10 * ofDigits init + digitValue c = 10 * (n * tenTo k) := by
        rw [ofDigits_eq, appendDigits_append, ← ofDigits_eq] at h
        rw [tenTo_succ, ← Nat.mul_assoc, Nat.mul_comm n, Nat.mul_assoc] at h
        exact h
      obtain ⟨front, rfl, hfront⟩ := ih (fun d hd => hdigits d (List.mem_append_left _ hd)) (by omega)
      refine ⟨front, ?_, hfront⟩
      rw [eq_zero_of_digitValue hc (by omega), List.append_assoc, ← List.replicate_succ']

/-- The zeros at the end of the digits are a power of ten that divides the number. -/
theorem tenTo_dvd_of_trailing (n : Nat) : tenTo ((digitsOf n).reverse.takeWhile (· == '0')).length ∣ n := by
  have hzeros : ((digitsOf n).reverse.takeWhile (· == '0')).reverse =
      List.replicate ((digitsOf n).reverse.takeWhile (· == '0')).length '0' := by
    rw [List.eq_replicate_iff]
    refine ⟨List.length_reverse, fun c hc => ?_⟩
    have hzero := List.mem_takeWhile_imp (List.mem_reverse.1 hc)
    exact beq_iff_eq.1 hzero
  have hsplit : digitsOf n = ((digitsOf n).reverse.dropWhile (· == '0')).reverse ++
      List.replicate ((digitsOf n).reverse.takeWhile (· == '0')).length '0' := by
    rw [← hzeros, ← List.reverse_append, List.takeWhile_append_dropWhile, List.reverse_reverse]
  have hvalue := congrArg ofDigits hsplit
  rw [Json.ofDigits_digitsOf, ofDigits_append_zeros] at hvalue
  exact ⟨_, hvalue.trans (Nat.mul_comm _ _)⟩

/-! ## Zeros before the digits -/

theorem ofDigits_zeros_append (k : Nat) (digits : List Char) :
    ofDigits (List.replicate k '0' ++ digits) = ofDigits digits := by
  rw [ofDigits_eq, appendDigits_append, appendDigits_zeros, Nat.zero_mul, ofDigits_eq]

theorem digitChar_digitValue {c : Char} (hc : c.isDigit = true) : (digitValue c).digitChar = c := by
  have hchar : ∀ d < 10, d.digitChar = Char.ofNat ('0'.toNat + d) := by decide
  have hlow : '0'.toNat ≤ c.toNat := (Char.isDigit_iff_toNat.1 hc).1
  rw [hchar _ (digitValue_lt hc), digitValue, Nat.add_sub_cancel' hlow, Char.ofNat_toNat]

theorem digitsOf_append_digit {n d : Nat} (hn : 0 < n) (hd : d < 10) :
    digitsOf (10 * n + d) = digitsOf n ++ [d.digitChar] := by
  unfold digitsOf
  rw [Nat.toDigits_of_base_le (by omega) (by omega), (by omega : (10 * n + d) / 10 = n),
    (by omega : (10 * n + d) % 10 = d)]

/-- Every run of digits is zeros and the digits of its number. By induction on the digits from the end: another digit
goes behind those of the number before it, or replaces its only zero. -/
theorem exists_zeros_append_digitsOf {digits : List Char} (hne : digits ≠ [])
    (hdigits : ∀ c ∈ digits, c.isDigit = true) :
    ∃ k, digits = List.replicate k '0' ++ digitsOf (ofDigits digits) := by
  induction digits using List.reverseRecOn with
  | nil => exact absurd rfl hne
  | append_singleton front c ih =>
    have hc := hdigits c (by simp)
    have hchar := digitChar_digitValue hc
    have hvalue : ofDigits (front ++ [c]) = 10 * ofDigits front + digitValue c := appendDigits_append 0 front [c]
    rw [hvalue]
    by_cases hfront : front = []
    · subst hfront
      exact ⟨0, by simp [ofDigits, digitsOf, Nat.toDigits_of_lt_base (digitValue_lt hc), hchar]⟩
    · obtain ⟨k, hk⟩ := ih hfront fun d hd => hdigits d (List.mem_append_left _ hd)
      rcases Nat.eq_zero_or_pos (ofDigits front) with hzero | hpos
      · refine ⟨k + 1, ?_⟩
        rw [hzero] at hk ⊢
        have hlast : digitsOf (10 * 0 + digitValue c) = [c] := by
          rw [Nat.mul_zero, Nat.zero_add, digitsOf, Nat.toDigits_of_lt_base (digitValue_lt hc), hchar]
        rw [hlast, hk, List.replicate_succ']
        rfl
      · refine ⟨k, ?_⟩
        rw [digitsOf_append_digit hpos (digitValue_lt hc), hchar, ← List.append_assoc, ← hk]

end Decimal

end Lineage
