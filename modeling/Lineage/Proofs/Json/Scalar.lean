import Lineage.Json.Printer
import Lineage.Json.Reader
import Mathlib.Data.List.TakeDrop

/-!
# Printed texts and numbers are read back

Main results:
* `Json.textBody?_quote`: the text that the printer puts in quotes is the text that is read from them.
* `Json.Number.readsBack_whole`: a whole number that fits 64 bits is read from its digits.
* `Json.number?_append`: a number is read the same when something follows that cannot belong to it.

A double is read back if the reader's rounding in steps comes to the double whose shortest decimal was
written; `Json.Number.ReadsBack` says that it does.
-/

namespace Lineage.Json

/-! ## Texts -/

theorem hexValue?_hexDigit : ∀ n < 16, hexValue? (hexDigit n) = some n := by
  decide

/-- Two digits behind two zeros are read as the number they were written for. -/
theorem hexUnit?_hexDigit {n : Nat} (hn : n < 0x20) (cs : List Char) :
    hexUnit? ('0' :: '0' :: hexDigit (n / 16) :: hexDigit (n % 16) :: cs) = some (n, cs) := by
  have hzero : hexValue? '0' = some 0 := by decide
  have hhigh : hexValue? (hexDigit (n / 16)) = some (n / 16) := hexValue?_hexDigit _ (by omega)
  have hlow : hexValue? (hexDigit (n % 16)) = some (n % 16) := hexValue?_hexDigit _ (by omega)
  have hsum : ((0 * 16 + 0) * 16 + n / 16) * 16 + n % 16 = n := by omega
  simp only [hexUnit?, hzero, hhigh, hlow, Option.bind_eq_bind, Option.bind_some, hsum, Option.pure_def]

theorem textBody?_escape (fuel : Nat) (done : List Char) (c : Char) (cs : List Char) :
    textBody? (fuel + 1) done (escape c ++ cs) = textBody? fuel (c :: done) cs := by
  unfold escape
  split_ifs with hquote hslash hline hreturn htab hback hfeed hcontrol
  · subst hquote
    simp [textBody?, simpleEscape?]
  · subst hslash
    simp [textBody?, simpleEscape?]
  · subst hline
    simp [textBody?, simpleEscape?]
  · subst hreturn
    simp [textBody?, simpleEscape?]
  · subst htab
    simp [textBody?, simpleEscape?]
  · obtain rfl : Char.ofNat 0x8 = c := by rw [← hback, Char.ofNat_toNat]
    simp [textBody?, simpleEscape?]
  · obtain rfl : Char.ofNat 0xc = c := by rw [← hfeed, Char.ofNat_toNat]
    simp [textBody?, simpleEscape?]
  · have hunit : unicodeEscape? ('0' :: '0' :: hexDigit (c.toNat / 16) :: hexDigit (c.toNat % 16) :: cs) =
        some (c, cs) := by
      have hlow : ¬ (0xdc00 ≤ c.toNat ∧ c.toNat ≤ 0xdfff) := by omega
      have hhigh : ¬ (0xd800 ≤ c.toNat ∧ c.toNat ≤ 0xdbff) := by omega
      simp only [unicodeEscape?, hexUnit?_hexDigit hcontrol, Option.bind_eq_bind, Option.bind_some,
        if_neg hlow, if_neg hhigh, Char.ofNat_toNat, Option.pure_def]
    simp [textBody?, hunit]
  · simp [textBody?, hquote, hslash, hcontrol]

/-- By induction on what is left to read; each character takes one unit of fuel. -/
theorem textBody?_flatMap (s : List Char) (fuel : Nat) (done rest : List Char) (hfuel : s.length < fuel) :
    textBody? fuel done (s.flatMap escape ++ '"' :: rest) = some (String.ofList (done.reverse ++ s), rest) := by
  induction s generalizing fuel done with
  | nil =>
    obtain ⟨fuel, rfl⟩ := Nat.exists_eq_add_of_lt hfuel
    simp [textBody?]
  | cons c s ih =>
    obtain ⟨fuel, rfl⟩ := Nat.exists_eq_add_of_lt (Nat.zero_lt_of_lt hfuel)
    rw [List.flatMap_cons, List.append_assoc, Nat.zero_add, textBody?_escape, ih]
    · simp
    · simp only [List.length_cons] at hfuel
      omega

theorem length_le_flatMap_escape (s : List Char) : s.length ≤ (s.flatMap escape).length := by
  induction s with
  | nil => exact Nat.le_refl _
  | cons c s ih =>
    have hpos : 1 ≤ (escape c).length := by
      unfold escape
      split_ifs <;> simp
    rw [List.flatMap_cons, List.length_append, List.length_cons]
    omega

theorem quote_append (s : String) (rest : List Char) :
    quote s ++ rest = '"' :: (s.toList.flatMap escape ++ '"' :: rest) := by
  simp [quote]

/-- Behind the opening quote the text is read, given as much fuel as it is long. -/
theorem textBody?_quote (s : String) {fuel : Nat} (rest : List Char) (hfuel : (quote s).length ≤ fuel + 1) :
    textBody? fuel [] (s.toList.flatMap escape ++ '"' :: rest) = some (s, rest) := by
  rw [textBody?_flatMap]
  · simp
  · have hlen := length_le_flatMap_escape s.toList
    simp only [quote, List.cons_append, List.length_cons, List.length_append, List.length_nil] at hfuel
    omega

/-! ## Numerals before other text -/

/-- What follows cannot be taken for more of a number. -/
def EndsNumber : List Char → Prop
  | [] => True
  | c :: _ => c.isDigit = false ∧ c ≠ '.' ∧ c ≠ 'e' ∧ c ≠ 'E'

section Append

variable {cs rest : List Char}

theorem spanDigits_cons (c : Char) (cs : List Char) :
    Decimal.spanDigits (c :: cs) =
      if c.isDigit then (c :: (Decimal.spanDigits cs).1, (Decimal.spanDigits cs).2) else ([], c :: cs) := by
  unfold Decimal.spanDigits
  rw [List.span_eq_takeWhile_dropWhile, List.span_eq_takeWhile_dropWhile, List.takeWhile_cons,
    List.dropWhile_cons]
  split <;> rfl

theorem spanDigits_append (hrest : EndsNumber rest) (cs : List Char) :
    Decimal.spanDigits (cs ++ rest) = ((Decimal.spanDigits cs).1, (Decimal.spanDigits cs).2 ++ rest) := by
  induction cs with
  | nil =>
    cases rest with
    | nil => rfl
    | cons c rest =>
      rw [List.nil_append, spanDigits_cons, hrest.1]
      rfl
  | cons c cs ih =>
    rw [List.cons_append, spanDigits_cons, spanDigits_cons, ih]
    split <;> rfl

theorem wholePart?_append (hrest : EndsNumber rest) (cs : List Char) :
    wholePart? (cs ++ rest) = (wholePart? cs).map fun (digits, after) => (digits, after ++ rest) := by
  unfold wholePart?
  rw [spanDigits_append hrest]
  generalize Decimal.spanDigits cs = parts
  obtain ⟨digits, after⟩ := parts
  simp only
  split <;> rfl

theorem fractionPart?_append (hrest : EndsNumber rest) (cs : List Char) :
    fractionPart? (cs ++ rest) = (fractionPart? cs).map fun (digits, after) => (digits, after ++ rest) := by
  cases cs with
  | nil =>
    cases rest with
    | nil => rfl
    | cons c rest =>
      obtain ⟨-, hpoint, -, -⟩ := hrest
      simp [fractionPart?, hpoint]
  | cons c cs =>
    by_cases hpoint : c = '.'
    · subst hpoint
      simp only [List.cons_append, fractionPart?, spanDigits_append hrest]
      split <;> rfl
    · simp [fractionPart?, hpoint]

theorem startsExponent_append (hrest : EndsNumber rest) (cs : List Char) :
    Decimal.startsExponent (cs ++ rest) = Decimal.startsExponent cs := by
  cases cs with
  | nil =>
    cases rest with
    | nil => rfl
    | cons c rest =>
      obtain ⟨-, -, hlower, hupper⟩ := hrest
      simp [Decimal.startsExponent, hlower, hupper]
  | cons c cs => rfl

/-- The digits of an exponent, once its sign is taken. -/
def exponentDigits? (negative : Bool) (cs : List Char) : Option (Int × List Char) :=
  let (digits, rest) := Decimal.spanDigits cs
  if digits.isEmpty then none
  else
    let n : Int := Decimal.ofDigits digits
    some (if negative then -n else n, rest)

theorem exponentDigits?_append (hrest : EndsNumber rest) (negative : Bool) (cs : List Char) :
    exponentDigits? negative (cs ++ rest) =
      (exponentDigits? negative cs).map fun (n, after) => (n, after ++ rest) := by
  unfold exponentDigits?
  rw [spanDigits_append hrest]
  generalize Decimal.spanDigits cs = parts
  simp only
  split <;> rfl

/-- The signed digits behind an exponent mark. -/
def signedDigits? : List Char → Option (Int × List Char)
  | '+' :: cs => exponentDigits? false cs
  | '-' :: cs => exponentDigits? true cs
  | cs => exponentDigits? false cs

theorem signedDigits?_cons {c : Char} (hplus : c ≠ '+') (hminus : c ≠ '-') (cs : List Char) :
    signedDigits? (c :: cs) = exponentDigits? false (c :: cs) := by
  unfold signedDigits?
  split
  · rename_i heq
    exact absurd (List.cons.inj heq).1 hplus
  · rename_i heq
    exact absurd (List.cons.inj heq).1 hminus
  · rfl

/-- There is at least one digit, so what follows is not taken for a sign. -/
theorem signedDigits?_append (hrest : EndsNumber rest) {n : Int} {after : List Char}
    (h : signedDigits? cs = some (n, after)) : signedDigits? (cs ++ rest) = some (n, after ++ rest) := by
  cases cs with
  | nil => cases h
  | cons c cs =>
    by_cases hplus : c = '+'
    · subst hplus
      rw [signedDigits?] at h
      rw [List.cons_append, signedDigits?, exponentDigits?_append hrest, h]
      rfl
    by_cases hminus : c = '-'
    · subst hminus
      rw [signedDigits?] at h
      rw [List.cons_append, signedDigits?, exponentDigits?_append hrest, h]
      rfl
    · rw [signedDigits?_cons hplus hminus] at h
      rw [List.cons_append, signedDigits?_cons hplus hminus, ← List.cons_append,
        exponentDigits?_append hrest, h]
      rfl

theorem exponentPart?_cons (c : Char) (cs : List Char) :
    Decimal.exponentPart? (c :: cs) =
      if Decimal.startsExponent (c :: cs) then signedDigits? cs else some (0, c :: cs) := by
  rw [Decimal.exponentPart?.eq_def]
  simp only
  split
  · split
    · rfl
    · rfl
    · rename_i hplus hminus
      exact (signedDigits?.eq_3 cs hplus hminus).symm
  · rfl

theorem exponentPart?_append (hrest : EndsNumber rest) {n : Int} {after : List Char}
    (h : Decimal.exponentPart? cs = some (n, after)) :
    Decimal.exponentPart? (cs ++ rest) = some (n, after ++ rest) := by
  cases cs with
  | nil =>
    cases h
    cases rest with
    | nil => rfl
    | cons c rest =>
      have hmark : Decimal.startsExponent (c :: rest) = false := startsExponent_append hrest []
      rw [List.nil_append, exponentPart?_cons, hmark]
      rfl
  | cons c cs =>
    rw [exponentPart?_cons] at h
    rw [List.cons_append, exponentPart?_cons, ← List.cons_append, startsExponent_append hrest]
    split at h
    · rename_i hmark
      rw [if_pos hmark]
      exact signedDigits?_append hrest h
    · rename_i hmark
      rw [if_neg hmark]
      cases h
      rfl

/-- The parts of a number behind its sign. -/
def unsignedNumeral? (negative : Bool) (cs : List Char) : Option (Numeral × List Char) := do
  let (whole, afterWhole) ← wholePart? cs
  let (fraction, afterFraction) ← fractionPart? afterWhole
  let (exponent, rest) ← Decimal.exponentPart? afterFraction
  let exponent := if Decimal.startsExponent afterFraction then some exponent else none
  return ({ negative, whole, fraction, exponent }, rest)

theorem unsignedNumeral?_append (hrest : EndsNumber rest) {negative : Bool} {n : Numeral}
    {after : List Char} (h : unsignedNumeral? negative cs = some (n, after)) :
    unsignedNumeral? negative (cs ++ rest) = some (n, after ++ rest) := by
  unfold unsignedNumeral? at h ⊢
  obtain ⟨⟨whole, afterWhole⟩, hwhole, h⟩ := Option.bind_eq_some_iff.1 h
  obtain ⟨⟨fraction, afterFraction⟩, hfraction, h⟩ := Option.bind_eq_some_iff.1 h
  obtain ⟨⟨exponent, afterExponent⟩, hexponent, h⟩ := Option.bind_eq_some_iff.1 h
  cases h
  simp only [wholePart?_append hrest, hwhole, Option.map_some, fractionPart?_append hrest, hfraction,
    exponentPart?_append hrest hexponent, startsExponent_append hrest, Option.bind_eq_bind,
    Option.bind_some, Option.pure_def]

theorem numeral?_cons {c : Char} (hminus : c ≠ '-') (cs : List Char) :
    numeral? (c :: cs) = unsignedNumeral? false (c :: cs) := by
  unfold numeral? unsignedNumeral?
  split
  rename_i heq
  split at heq
  · rename_i hcons
    exact absurd (List.cons.inj hcons).1 hminus
  · cases heq
    rfl

theorem numeral?_append (hrest : EndsNumber rest) {n : Numeral} {after : List Char}
    (h : numeral? cs = some (n, after)) : numeral? (cs ++ rest) = some (n, after ++ rest) := by
  cases cs with
  | nil => cases h
  | cons c cs =>
    by_cases hminus : c = '-'
    · subst hminus
      exact unsignedNumeral?_append hrest h
    · rw [numeral?_cons hminus] at h
      rw [List.cons_append, numeral?_cons hminus, ← List.cons_append]
      exact unsignedNumeral?_append hrest h

theorem number?_eq_some {numeral : Numeral} {n : Number} (hnumeral : numeral? cs = some (numeral, rest))
    (hn : Number.ofNumeral? numeral = some n) : number? cs = some (n, rest) := by
  simp only [number?, hnumeral, Option.bind_eq_bind, Option.bind_some, hn, Option.pure_def]

theorem number?_append (hrest : EndsNumber rest) {n : Number} {after : List Char}
    (h : number? cs = some (n, after)) : number? (cs ++ rest) = some (n, after ++ rest) := by
  simp only [number?, Option.bind_eq_bind, Option.bind_eq_some_iff, Option.pure_def] at h
  obtain ⟨⟨numeral, left⟩, hnumeral, m, hm, heq⟩ := h
  cases heq
  exact number?_eq_some (numeral?_append hrest hnumeral) hm

end Append

/-! ## Numbers that are read back -/

/-- The text of the number is read as the number. -/
def Number.ReadsBack (n : Number) : Prop := number? n.text = some (n, [])

instance (n : Number) : Decidable n.ReadsBack := inferInstanceAs (Decidable (_ = _))

theorem ofDigits_digitsOf (n : Nat) : Decimal.ofDigits (Decimal.digitsOf n) = n := by
  have h := Nat.ofDigitChars_ten_toDigits (n := n)
  rw [Nat.ofDigitChars_eq_foldl] at h
  exact h

theorem exists_digitsOf_eq_cons {n : Nat} (hn : 0 < n) : ∃ c cs, Decimal.digitsOf n = c :: cs ∧ c ≠ '0' := by
  induction n using Nat.strongRecOn with
  | ind n ih =>
    unfold Decimal.digitsOf at *
    by_cases hlt : n < 10
    · refine ⟨n.digitChar, [], Nat.toDigits_of_lt_base hlt, ?_⟩
      intro hzero
      rw [Nat.digitChar_eq_zero] at hzero
      omega
    · obtain ⟨c, cs, hcs, hc⟩ := ih (n / 10) (by omega) (by omega)
      exact ⟨c, cs ++ [(n % 10).digitChar],
        by rw [Nat.toDigits_of_base_le (by omega) (by omega), hcs, List.cons_append], hc⟩

theorem isDigit_of_mem_digitsOf {n : Nat} {c : Char} (h : c ∈ Decimal.digitsOf n) : c.isDigit = true :=
  Nat.isDigit_of_mem_toDigits (by omega) (by omega) h

theorem spanDigits_of_forall {cs : List Char} (h : ∀ c ∈ cs, c.isDigit = true) :
    Decimal.spanDigits cs = (cs, []) := by
  induction cs with
  | nil => rfl
  | cons c cs ih =>
    obtain ⟨hc, hcs⟩ := List.forall_mem_cons.1 h
    rw [spanDigits_cons, ih hcs, if_pos hc]

theorem wholePart?_digitsOf (n : Nat) : wholePart? (Decimal.digitsOf n) = some (Decimal.digitsOf n, []) := by
  rw [wholePart?, spanDigits_of_forall fun c => isDigit_of_mem_digitsOf]
  rcases Nat.eq_zero_or_pos n with rfl | hpos
  · rfl
  · obtain ⟨c, cs, hcs, hc⟩ := exists_digitsOf_eq_cons hpos
    rw [hcs]
    simp only
    split
    · rename_i heq
      cases heq
    · rfl
    · rename_i heq
      exact absurd (List.cons.inj heq).1 hc
    · rfl

theorem unsignedNumeral?_digitsOf (negative : Bool) (n : Nat) :
    unsignedNumeral? negative (Decimal.digitsOf n) = some ({ negative, whole := Decimal.digitsOf n }, []) := by
  rw [unsignedNumeral?, wholePart?_digitsOf]
  rfl

theorem numeral?_digitsOf (n : Nat) :
    numeral? (Decimal.digitsOf n) = some ({ negative := false, whole := Decimal.digitsOf n }, []) := by
  rw [← unsignedNumeral?_digitsOf]
  cases hdigits : Decimal.digitsOf n with
  | nil => exact absurd hdigits Nat.toDigits_ne_nil
  | cons c cs =>
    refine numeral?_cons ?_ cs
    rintro rfl
    have hdigit : '-'.isDigit = true := isDigit_of_mem_digitsOf (hdigits ▸ List.mem_cons_self)
    cases hdigit

theorem Number.ofNumeral?_whole {numeral : Numeral} {n : Int} (hplain : numeral.isPlain = true)
    (hint : numeral.toInt = n) (hn : isWhole n = true) (hzero : numeral.negative = true → n ≠ 0) :
    ofNumeral? numeral = some (.whole n) := by
  have hminus : (numeral.negative && n == 0) = false := by
    cases hnegative : numeral.negative with
    | false => rfl
    | true => exact beq_eq_false_iff_ne.2 (hzero hnegative)
  rw [ofNumeral?, hint, if_pos (by rw [hplain, hn, hminus]; rfl)]

theorem Number.readsBack_whole {n : Int} (hn : isWhole n = true) : (Number.whole n).ReadsBack := by
  unfold ReadsBack
  rw [text]
  split
  · rename_i hneg
    have hint : Numeral.toInt { negative := true, whole := Decimal.digitsOf n.natAbs } = n := by
      simp only [Numeral.toInt, if_true, ofDigits_digitsOf]
      omega
    exact number?_eq_some (unsignedNumeral?_digitsOf true _) (ofNumeral?_whole rfl hint hn fun _ => by omega)
  · rename_i hpos
    have hint : Numeral.toInt { negative := false, whole := Decimal.digitsOf n.natAbs } = n := by
      simp only [Numeral.toInt, Bool.false_eq_true, if_false, ofDigits_digitsOf]
      omega
    exact number?_eq_some (numeral?_digitsOf _) (ofNumeral?_whole rfl hint hn nofun)

end Lineage.Json
