import Lineage.Proofs.Json.ReadBack

/-!
# Values that are skipped

Main result:
* `Json.skipValue?_of_value?`: a value that can be read can be skipped, up to the same place.

The reader that skips a value never builds it: it goes from the place of one value to the place of the next,
with nothing but a list of the brackets that are open (`Skips`). Each of its steps takes at least one character
(`length_lt_of_enter?`), so its fuel is enough, and it comes to the end of whatever the other reader reads
(`readSkips`).
-/

namespace Lineage.Json

variable {cs rest : List Char}

/-! ## Texts -/

/-- Four hexadecimal digits stand at the front. -/
theorem exists_of_hexUnit? {n : Nat} (h : hexUnit? cs = some (n, rest)) :
    ∃ a b c d, cs = a :: b :: c :: d :: rest ∧ (hexUnit? [a, b, c, d]).isSome = true := by
  unfold hexUnit? at h
  split at h
  · rename_i a b c d rest'
    simp only [Option.bind_eq_bind, Option.bind_eq_some_iff, Option.pure_def, Option.some.injEq,
      Prod.mk.injEq] at h
    obtain ⟨x, hx, y, hy, z, hz, w, hw, -, rfl⟩ := h
    exact ⟨a, b, c, d, rfl, by simp [hexUnit?, hx, hy, hz, hw]⟩
  · cases h

theorem skipText?_hexUnit {n : Nat} (h : hexUnit? cs = some (n, rest)) :
    skipText? ('\\' :: 'u' :: cs) = skipText? rest := by
  obtain ⟨a, b, c, d, rfl, hunit⟩ := exists_of_hexUnit? h
  rw [skipText?, if_pos hunit]

/-- A pair of surrogates is skipped as two escapes. -/
theorem skipText?_unicode {c : Char} (h : unicodeEscape? cs = some (c, rest)) :
    skipText? ('\\' :: 'u' :: cs) = skipText? rest := by
  unfold unicodeEscape? at h
  obtain ⟨⟨high, afterHigh⟩, hhigh, h⟩ := Option.bind_eq_some_iff.1 h
  rw [skipText?_hexUnit hhigh]
  dsimp only at h
  split at h
  · cases h
  split at h
  · split at h
    · obtain ⟨⟨low, afterLow⟩, hlow, h⟩ := Option.bind_eq_some_iff.1 h
      dsimp only at h
      split at h
      · obtain ⟨-, rfl⟩ := Prod.mk.inj (Option.some.inj h)
        exact skipText?_hexUnit hlow
      · cases h
    · cases h
  · obtain ⟨-, rfl⟩ := Prod.mk.inj (Option.some.inj h)
    rfl

theorem skipText?_simple {c d : Char} (hu : c ≠ 'u') (h : simpleEscape? c = some d) :
    skipText? ('\\' :: c :: cs) = skipText? cs := by
  rw [skipText?.eq_def]
  simp [hu, h]

theorem skipText?_plain {c : Char} (hquote : c ≠ '"') (hslash : c ≠ '\\') (hcontrol : ¬ c.toNat < 0x20) :
    skipText? (c :: cs) = skipText? cs := by
  rw [skipText?.eq_def]
  simp [hslash, hcontrol]

/-- Skipping a text stops where reading it does. -/
theorem skipText?_of_textBody? {fuel : Nat} {done : List Char} {s : String}
    (h : textBody? fuel done cs = some (s, rest)) : skipText? cs = some rest := by
  induction fuel generalizing done cs with
  | zero => simp [textBody?] at h
  | succ fuel ih =>
    cases cs with
    | nil => simp [textBody?] at h
    | cons c cs =>
      simp only [textBody?] at h
      split at h
      · rename_i hquote
        cases h
        rw [hquote, skipText?]
      · rename_i hquote
        split at h
        · rename_i hslash
          rw [hslash]
          split at h
          · obtain ⟨⟨c, afterEscape⟩, hc, h⟩ := Option.bind_eq_some_iff.1 h
            rw [skipText?_unicode hc]
            exact ih h
          · rename_i hu
            obtain ⟨d, hd, h⟩ := Option.bind_eq_some_iff.1 h
            rw [skipText?_simple (by simpa using hu) hd]
            exact ih h
          · cases h
        · rename_i hslash
          split at h
          · cases h
          · rename_i hcontrol
            rw [skipText?_plain hquote hslash hcontrol]
            exact ih h

/-! ## Numbers -/

theorem exists_of_number? {n : Number} (h : number? cs = some (n, rest)) :
    ∃ numeral, numeral? cs = some (numeral, rest) := by
  obtain ⟨⟨numeral, _⟩, hnumeral, h⟩ := Option.bind_eq_some_iff.1 h
  obtain ⟨_, -, hpair⟩ := Option.bind_eq_some_iff.1 h
  cases hpair
  exact ⟨numeral, hnumeral⟩

theorem skipScalar?_number {c : Char} (hc : startsNumber c = true) {n : Numeral}
    (h : numeral? (c :: cs) = some (n, rest)) : skipScalar? (c :: cs) = some rest := by
  unfold skipScalar?
  split
  case h_5 => rw [h, Option.map_some]
  all_goals
    rename_i heq
    rw [(List.cons.inj heq).1] at hc
    exact absurd hc (by decide)

/-! ## Every step takes a character -/

theorem length_skipBlanks_le (cs : List Char) : (skipBlanks cs).length ≤ cs.length :=
  (List.dropWhile_sublist _).length_le

theorem length_lt_of_skipText? (h : skipText? cs = some rest) : rest.length < cs.length := by
  fun_induction skipText? cs with
  | case1 => simp_all
  | case2 a b c d tail hunit ih =>
    have := ih h
    simp only [List.length_cons]
    omega
  | case3 => cases h
  | case4 c tail _ hescape ih =>
    have := ih h
    simp only [List.length_cons]
    omega
  | case5 => cases h
  | case6 => cases h
  | case7 c tail _ _ _ hplain ih =>
    have := ih h
    simp only [List.length_cons]
    omega
  | case8 => cases h

theorem length_spanDigits (cs : List Char) :
    (Decimal.spanDigits cs).1.length + (Decimal.spanDigits cs).2.length = cs.length := by
  rw [Decimal.spanDigits, List.span_eq_takeWhile_dropWhile, ← List.length_append, List.takeWhile_append_dropWhile]

theorem length_lt_of_wholePart? {digits : List Char} (h : wholePart? cs = some (digits, rest)) :
    rest.length < cs.length := by
  have hlength := length_spanDigits cs
  unfold wholePart? at h
  dsimp only at h
  split at h
  · cases h
  · rename_i heq
    cases h
    rw [heq] at hlength
    simp at hlength
    omega
  · cases h
  · rename_i hnil _ _
    cases h
    have hpos := List.length_pos_iff.2 hnil
    omega

theorem length_le_of_fractionPart? {digits : List Char} (h : fractionPart? cs = some (digits, rest)) :
    rest.length ≤ cs.length := by
  unfold fractionPart? at h
  split at h
  · rename_i tail
    have hlength := length_spanDigits tail
    dsimp only at h
    split at h
    · cases h
    · cases h
      simp only [List.length_cons]
      omega
  · cases h
    exact le_rfl

theorem length_le_of_exponentDigits? {negative : Bool} {n : Int}
    (h : exponentDigits? negative cs = some (n, rest)) : rest.length ≤ cs.length := by
  have hlength := length_spanDigits cs
  unfold exponentDigits? at h
  dsimp only at h
  split at h
  · cases h
  · cases h
    omega

theorem length_le_of_signedDigits? {n : Int} (h : signedDigits? cs = some (n, rest)) :
    rest.length ≤ cs.length := by
  unfold signedDigits? at h
  split at h
  · exact (length_le_of_exponentDigits? h).trans (Nat.le_succ _)
  · exact (length_le_of_exponentDigits? h).trans (Nat.le_succ _)
  · exact length_le_of_exponentDigits? h

theorem length_le_of_exponentPart? {n : Int} (h : Decimal.exponentPart? cs = some (n, rest)) :
    rest.length ≤ cs.length := by
  cases cs with
  | nil =>
    cases h
    exact le_rfl
  | cons c cs =>
    rw [exponentPart?_cons] at h
    split at h
    · exact (length_le_of_signedDigits? h).trans (Nat.le_succ _)
    · cases h
      exact le_rfl

theorem length_lt_of_unsignedNumeral? {negative : Bool} {n : Numeral}
    (h : unsignedNumeral? negative cs = some (n, rest)) : rest.length < cs.length := by
  unfold unsignedNumeral? at h
  obtain ⟨⟨_, afterWhole⟩, hwhole, h⟩ := Option.bind_eq_some_iff.1 h
  obtain ⟨⟨_, afterFraction⟩, hfraction, h⟩ := Option.bind_eq_some_iff.1 h
  obtain ⟨⟨_, afterExponent⟩, hexponent, h⟩ := Option.bind_eq_some_iff.1 h
  cases h
  have hlt := length_lt_of_wholePart? hwhole
  have hle := length_le_of_fractionPart? hfraction
  have hle' := length_le_of_exponentPart? hexponent
  omega

theorem length_lt_of_numeral? {n : Numeral} (h : numeral? cs = some (n, rest)) : rest.length < cs.length := by
  cases cs with
  | nil => cases h
  | cons c cs =>
    by_cases hminus : c = '-'
    · subst hminus
      have hparts : unsignedNumeral? true cs = some (n, rest) := h
      have hlt := length_lt_of_unsignedNumeral? hparts
      exact hlt.trans (Nat.lt_succ_self _)
    · rw [numeral?_cons hminus] at h
      exact length_lt_of_unsignedNumeral? h

theorem length_lt_of_skipScalar? (h : skipScalar? cs = some rest) : rest.length < cs.length := by
  unfold skipScalar? at h
  split at h
  · cases h
    simp only [List.length_cons]
    omega
  · cases h
    simp only [List.length_cons]
    omega
  · cases h
    simp only [List.length_cons]
    omega
  · have hlt := length_lt_of_skipText? h
    simp only [List.length_cons]
    omega
  · obtain ⟨⟨_, _⟩, hn, rfl⟩ := Option.map_eq_some_iff.1 h
    exact length_lt_of_numeral? hn

theorem length_lt_of_skipName? (h : skipName? cs = some rest) : rest.length < cs.length := by
  have hblanks := length_skipBlanks_le cs
  unfold skipName? at h
  split at h
  · rename_i tail heq
    rw [heq, List.length_cons] at hblanks
    split at h
    · rename_i rest' hcolon
      cases h
      obtain ⟨afterName, hname, hafter⟩ := Option.map_eq_some_iff.1 hcolon
      have hlt := length_lt_of_skipText? hname
      have hle := length_skipBlanks_le afterName
      rw [hafter, List.length_cons] at hle
      omega
    · cases h
  · cases h

variable {enclosing : List Bracket} {place : List Bracket × List Char}

theorem length_le_of_nextValue? (h : nextValue? enclosing cs = some place) : place.2.length ≤ cs.length := by
  induction enclosing generalizing cs with
  | nil =>
    cases h
    exact le_rfl
  | cons bracket enclosing ih =>
    have hblanks := length_skipBlanks_le cs
    rw [nextValue?.eq_def] at h
    dsimp only at h
    split at h
    · rename_i tail hcomma
      rw [hcomma, List.length_cons] at hblanks
      cases h
      dsimp only
      omega
    · rename_i tail hcomma
      rw [hcomma, List.length_cons] at hblanks
      obtain ⟨rest, hname, rfl⟩ := Option.map_eq_some_iff.1 h
      have hlt := length_lt_of_skipName? hname
      dsimp only
      omega
    · rename_i tail hclose
      rw [hclose, List.length_cons] at hblanks
      have hle := ih h
      omega
    · rename_i tail hclose
      rw [hclose, List.length_cons] at hblanks
      have hle := ih h
      omega
    · cases h

theorem length_lt_of_enter? (h : enter? enclosing cs = some place) : place.2.length < cs.length := by
  have hblanks := length_skipBlanks_le cs
  unfold enter? at h
  split at h
  · rename_i tail heq
    rw [heq, List.length_cons] at hblanks
    have hinner := length_skipBlanks_le tail
    split at h
    · rename_i heq
      rw [heq, List.length_cons] at hinner
      have hle := length_le_of_nextValue? h
      omega
    · cases h
      dsimp only
      omega
  · rename_i tail heq
    rw [heq, List.length_cons] at hblanks
    have hinner := length_skipBlanks_le tail
    split at h
    · rename_i heq
      rw [heq, List.length_cons] at hinner
      have hle := length_le_of_nextValue? h
      omega
    · obtain ⟨rest, hname, rfl⟩ := Option.map_eq_some_iff.1 h
      have hlt := length_lt_of_skipName? hname
      dsimp only
      omega
  · obtain ⟨afterScalar, hscalar, h⟩ := Option.bind_eq_some_iff.1 h
    have hlt := length_lt_of_skipScalar? hscalar
    have hle := length_le_of_nextValue? h
    omega

/-! ## From value to value -/

/-- Skipping leads from the place of a value to a later place: where another value begins, or where no bracket
is open any more. -/
inductive Skips : List Bracket × List Char → List Bracket × List Char → Prop
  | last {start place : List Bracket × List Char} (h : enter? start.1 start.2 = some place) : Skips start place
  | step {start place : List Bracket × List Char} {bracket : Bracket} {outer : List Bracket} {more : List Char}
    (h : enter? start.1 start.2 = some (bracket :: outer, more)) (hmore : Skips (bracket :: outer, more) place) :
    Skips start place

namespace Skips

theorem trans {start place : List Bracket × List Char} {bracket : Bracket} {outer : List Bracket}
    {more : List Char} (h : Skips start (bracket :: outer, more)) (hmore : Skips (bracket :: outer, more) place) :
    Skips start place := by
  generalize hmiddle : (bracket :: outer, more) = middle at h
  induction h with
  | last h =>
    subst hmiddle
    exact .step h hmore
  | step h _ ih => exact .step h (ih hmiddle)

/-- A value without parts is skipped in one step. -/
theorem scalar {c : Char} {tail : List Char} (heq : skipBlanks cs = c :: tail) (harray : c ≠ '[')
    (hobject : c ≠ '{') (hskip : skipScalar? (c :: tail) = some rest)
    (hnext : nextValue? enclosing rest = some place) : Skips (enclosing, cs) place := by
  refine .last ?_
  dsimp only
  unfold enter?
  rw [heq]
  split
  · rename_i hcons
    exact absurd (List.cons.inj hcons).1 harray
  · rename_i hcons
    exact absurd (List.cons.inj hcons).1 hobject
  · rw [hskip, Option.bind_some, hnext]

/-- Every step takes a character, so the fuel does not run out before the end. -/
theorem skipAll?_eq {start place : List Bracket × List Char} (h : Skips start place) (hclosed : place.1 = [])
    {fuel : Nat} (hfuel : start.2.length < fuel) : skipAll? fuel start.1 start.2 = some place.2 := by
  induction h generalizing fuel with
  | @last start place h =>
    obtain ⟨fuel, rfl⟩ := Nat.exists_eq_add_of_lt (Nat.zero_lt_of_lt hfuel)
    obtain ⟨closed, rest⟩ := place
    subst hclosed
    simp only [skipAll?, h]
  | @step start place bracket outer more h _ ih =>
    obtain ⟨fuel, rfl⟩ := Nat.exists_eq_add_of_lt (Nat.zero_lt_of_lt hfuel)
    have hlt : more.length < start.2.length := length_lt_of_enter? h
    simp only [Nat.zero_add, skipAll?, h]
    exact ih hclosed (by simp only at hfuel ⊢; omega)

end Skips

/-- What is read at this fuel can be skipped. -/
structure ReadSkips (fuel : Nat) : Prop where
  value {depth : Nat} {cs rest : List Char} {v : Json} {enclosing : List Bracket}
    {place : List Bracket × List Char} : value? fuel depth .whole cs = some (v, rest) →
      nextValue? enclosing rest = some place → Skips (enclosing, cs) place
  items {depth start : Nat} {cs rest : List Char} {items : List Json} {enclosing : List Bracket}
    {place : List Bracket × List Char} : items? fuel depth .whole start cs = some (items, rest) →
      nextValue? enclosing rest = some place → Skips (.array :: enclosing, cs) place
  fields {depth : Nat} {cs rest : List Char} {fields : List (String × Json)} {enclosing : List Bracket}
    {place : List Bracket × List Char} : fields? fuel depth .whole cs = some (fields, rest) →
      nextValue? enclosing rest = some place →
      ∃ beforeValue, skipName? cs = some beforeValue ∧ Skips (.object :: enclosing, beforeValue) place

namespace ReadSkips

variable {fuel depth : Nat}

theorem value_succ (ih : ReadSkips fuel) {v : Json} (h : value? (fuel + 1) depth .whole cs = some (v, rest))
    (hnext : nextValue? enclosing rest = some place) : Skips (enclosing, cs) place := by
  rw [value?.eq_3 depth .whole cs fuel Focus.whole_kept] at h
  split at h
  · rename_i heq
    cases h
    exact .scalar heq (by decide) (by decide) rfl hnext
  · rename_i heq
    cases h
    exact .scalar heq (by decide) (by decide) rfl hnext
  · rename_i heq
    cases h
    exact .scalar heq (by decide) (by decide) rfl hnext
  · rename_i heq
    obtain ⟨⟨s, _⟩, htext, hpair⟩ := Option.map_eq_some_iff.1 h
    cases hpair
    exact .scalar heq (by decide) (by decide) (skipText?_of_textBody? htext) hnext
  · rename_i heq
    split at h
    · cases h
    split at h
    · rename_i hempty
      cases h
      exact .last (by simp only [enter?, heq, hempty, hnext])
    · rename_i hitem
      obtain ⟨⟨items, _⟩, hitems, hpair⟩ := Option.map_eq_some_iff.1 h
      cases hpair
      refine .step ?_ (ih.items hitems hnext)
      simp only [enter?, heq]
  · rename_i heq
    split at h
    · cases h
    split at h
    · rename_i hempty
      cases h
      exact .last (by simp only [enter?, heq, hempty, hnext])
    · obtain ⟨⟨fields, _⟩, hfields, hpair⟩ := Option.map_eq_some_iff.1 h
      cases hpair
      obtain ⟨beforeValue, hname, hskips⟩ := ih.fields hfields hnext
      refine .step ?_ hskips
      simp only [enter?, heq, hname, Option.map_some]
  · obtain ⟨⟨n, _⟩, hnumber, hpair⟩ := Option.map_eq_some_iff.1 h
    cases hpair
    obtain ⟨numeral, hnumeral⟩ := exists_of_number? hnumber
    obtain ⟨c, tail, heq, hc⟩ := startsNumber_of_numeral? hnumeral
    rw [heq] at hnumeral
    refine .scalar heq ?_ ?_ (skipScalar?_number hc hnumeral) hnext
    · rintro rfl
      exact absurd hc (by decide)
    · rintro rfl
      exact absurd hc (by decide)

theorem items_succ (ih : ReadSkips fuel) {start : Nat} {items : List Json}
    (h : items? (fuel + 1) depth .whole start cs = some (items, rest))
    (hnext : nextValue? enclosing rest = some place) : Skips (.array :: enclosing, cs) place := by
  rw [items?] at h
  obtain ⟨⟨item, afterItem⟩, hitem, h⟩ := Option.bind_eq_some_iff.1 h
  simp only at h
  split at h
  · rename_i more hcomma
    obtain ⟨⟨others, _⟩, hothers, h⟩ := Option.bind_eq_some_iff.1 h
    cases h
    exact (ih.value hitem (nextValue?.eq_2 _ _ _ hcomma)).trans (ih.items hothers hnext)
  · rename_i hclose
    cases h
    refine ih.value hitem ?_
    rw [nextValue?.eq_4 _ _ _ hclose, hnext]
  · cases h

theorem fields_succ (ih : ReadSkips fuel) {fields : List (String × Json)}
    (h : fields? (fuel + 1) depth .whole cs = some (fields, rest))
    (hnext : nextValue? enclosing rest = some place) :
    ∃ beforeValue, skipName? cs = some beforeValue ∧ Skips (.object :: enclosing, beforeValue) place := by
  rw [fields?] at h
  split at h
  · rename_i hquote
    obtain ⟨⟨name, afterName⟩, hname, h⟩ := Option.bind_eq_some_iff.1 h
    simp only at h
    split at h
    · rename_i beforeValue hcolon
      obtain ⟨⟨value, afterValue⟩, hvalue, h⟩ := Option.bind_eq_some_iff.1 h
      have hskip : skipName? cs = some beforeValue := by
        simp only [skipName?, hquote, skipText?_of_textBody? hname, Option.map_some, hcolon]
      refine ⟨beforeValue, hskip, ?_⟩
      simp only at h
      split at h
      · rename_i more hcomma
        obtain ⟨⟨others, _⟩, hothers, h⟩ := Option.bind_eq_some_iff.1 h
        cases h
        obtain ⟨beforeNext, hnextName, hskips⟩ := ih.fields hothers hnext
        refine (ih.value hvalue ?_).trans hskips
        rw [nextValue?.eq_3 _ _ _ hcomma, hnextName, Option.map_some]
      · rename_i hclose
        cases h
        refine ih.value hvalue ?_
        rw [nextValue?.eq_5 _ _ _ hclose, hnext]
      · cases h
    · cases h
  · cases h

end ReadSkips

theorem readSkips (fuel : Nat) : ReadSkips fuel := by
  induction fuel with
  | zero =>
    constructor
    · intro _ _ _ _ _ _ h
      simp [value?] at h
    · intro _ _ _ _ _ _ _ h
      simp [items?] at h
    · intro _ _ _ _ _ _ h
      simp [fields?] at h
  | succ fuel ih => exact ⟨ih.value_succ, ih.items_succ, ih.fields_succ⟩

/-- What is read can be skipped, up to the same place. -/
theorem skipValue?_of_value? {fuel depth : Nat} {v : Json} (h : value? fuel depth .whole cs = some (v, rest)) :
    skipValue? cs = some rest := by
  have hskips : Skips ([], cs) ([], rest) := (readSkips fuel).value h rfl
  exact hskips.skipAll?_eq rfl (Nat.lt_succ_self _)

end Lineage.Json
