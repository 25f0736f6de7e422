import Lineage.Proofs.Selector.Reading

/-!
# Writing selectors

Selectors with plain names are read back from what is written, whatever blanks stand around it, and what is read is
written again as it was, but for zeros before the numbers (`Selector.parse_toText`).
-/

namespace Lineage

namespace Selector

variable {e : Extent} {extent? : Option Extent} {name : String} {k l : Nat} {place : List Char → List Char}
  {part : List Char}

/-- An extent whose number fits 64 bits. -/
def Fits : Extent → Prop
  | .unbounded => True
  | .edges n => n < twoTo 64

/-- A name without plus signs, and without blanks at its ends. -/
structure PlainName (name : String) : Prop where
  ne_nil : name.toList ≠ []
  first : ∀ c ∈ name.toList.head?, Text.isBlank c = false
  last : ∀ c ∈ name.toList.getLast?, Text.isBlank c = false
  plus_not_mem : '+' ∉ name.toList

/-- A selector that can be told from what is written: its name is plain, and does not look like a part before a name
where there is none. -/
def Writable : Selector → Prop
  | .family node => PlainName node
  | .around parents node children =>
    PlainName node ∧ (∀ e ∈ parents, Fits e) ∧ (∀ e ∈ children, Fits e) ∧
      (parents = none → node.toList.head? ≠ some '@' ∧
        (children ≠ none → ∃ c ∈ node.toList, c.isDigit = false))

/-- The digits of an extent, with `zeros` zeros before its number. -/
def padded (zeros : Nat) : Extent → List Char
  | .unbounded => []
  | .edges n => List.replicate zeros '0' ++ (toString n).toList

/-- A part next to a name, with `zeros` zeros before its number. -/
def partText (place : List Char → List Char) (zeros : Nat) : Option Extent → List Char
  | none => []
  | some e => place (padded zeros e)

/-- The part before a name. -/
def leadText (zeros : Nat) : Option Extent → List Char := partText (fun digits => digits ++ ['+']) zeros

/-- The part behind a name. -/
def trailText (zeros : Nat) : Option Extent → List Char := partText (fun digits => '+' :: digits) zeros

/-- The written form, with `k` zeros before the number of the first part and `l` before that of the last. -/
def paddedText (k l : Nat) : Selector → List Char
  | .family node => '@' :: node.toList
  | .around parents node children => leadText k parents ++ (node.toList ++ trailText l children)

theorem toList_toText (s : Selector) : s.toText.toList = s.paddedText 0 0 := by
  cases s with
  | family node => simp [toText, paddedText]
  | around parents node children =>
    have hlead : (parentsText parents).toList = leadText 0 parents := by
      rcases parents with _ | _ | n <;> simp [parentsText, leadText, partText, padded]
    have htrail : (childrenText children).toList = trailText 0 children := by
      rcases children with _ | _ | n <;> simp [childrenText, trailText, partText, padded]
    simp [toText, paddedText, hlead, htrail]

/-! ## Parts -/

theorem toList_toString_nat (n : Nat) : (toString n).toList = Decimal.digitsOf n := by
  rw [Nat.toString_eq_ofList_toDigits, String.toList_ofList]
  rfl

theorem spelledBy_padded (h : Fits e) : SpelledBy e (padded k e) := by
  cases e with
  | unbounded => exact .unbounded
  | edges n =>
    rw [padded, toList_toString_nat]
    have hvalue : Decimal.ofDigits (List.replicate k '0' ++ Decimal.digitsOf n) = n := by
      rw [Decimal.ofDigits_zeros_append, Json.ofDigits_digitsOf]
    have hne : List.replicate k '0' ++ Decimal.digitsOf n ≠ [] :=
      List.append_ne_nil_of_right_ne_nil _ Nat.toDigits_ne_nil
    have hdigits : ∀ c ∈ List.replicate k '0' ++ Decimal.digitsOf n, c.isDigit = true := by
      intro c hc
      rcases List.mem_append.1 hc with hc | hc
      · rw [(List.mem_replicate.1 hc).2]
        rfl
      · exact Json.isDigit_of_mem_digitsOf hc
    have hspelled := SpelledBy.edges hne hdigits (hvalue.symm ▸ h)
    rwa [hvalue] at hspelled

theorem exists_padded_of_spelledBy {digits : List Char} (h : SpelledBy e digits) : ∃ k, digits = padded k e := by
  cases h with
  | unbounded => exact ⟨0, rfl⟩
  | edges hne hdigits _ =>
    obtain ⟨k, hk⟩ := Decimal.exists_zeros_append_digitsOf hne hdigits
    exact ⟨k, by rw [padded, toList_toString_nat, ← hk]⟩

theorem part_partText (h : ∀ e ∈ extent?, Fits e) : Part place extent? (partText place k extent?) := by
  cases extent? with
  | none => rfl
  | some e => exact ⟨_, spelledBy_padded (h e rfl), rfl⟩

theorem Part.exists_partText (h : Part place extent? part) : ∃ k, part = partText place k extent? := by
  cases extent? with
  | none => exact ⟨0, h⟩
  | some e =>
    obtain ⟨digits, hdigits, rfl⟩ := h
    obtain ⟨k, rfl⟩ := exists_padded_of_spelledBy hdigits
    exact ⟨k, rfl⟩

/-- What is read is written again as it was, but for zeros. -/
theorem exists_paddedText_of_reads {s : Selector} {cs : List Char} (h : Reads s cs) :
    ∃ k l, cs = s.paddedText k l := by
  cases s with
  | family node => exact ⟨0, 0, h.1⟩
  | around parents node children =>
    obtain ⟨-, -, before, behind, hcs, hleads, -, htrails, -⟩ := h
    obtain ⟨k, rfl⟩ := hleads.exists_partText
    obtain ⟨l, rfl⟩ := htrails.exists_partText
    exact ⟨k, l, hcs⟩

/-! ## Ends

A part before or behind a name is made of digits and plus signs, so the ends of what is written are not blank, and
none of the parts can be taken for another.
-/

theorem Part.isDigit_or_plus (h : Part place extent? part)
    (hplace : ∀ digits, ∀ c ∈ place digits, c ∈ digits ∨ c = '+') : ∀ c ∈ part, c.isDigit = true ∨ c = '+' := by
  cases extent? with
  | none =>
    obtain rfl : part = [] := h
    exact nofun
  | some e =>
    obtain ⟨digits, hdigits, rfl⟩ := h
    exact fun c hc => (hplace digits c hc).imp_left (hdigits.isDigit c)

theorem isDigit_or_plus_of_leads {parents : Option Extent} {before : List Char} (h : Leads parents before) :
    ∀ c ∈ before, c.isDigit = true ∨ c = '+' :=
  h.isDigit_or_plus (by simp)

theorem isDigit_or_plus_of_trails {children : Option Extent} {behind : List Char} (h : Trails children behind) :
    ∀ c ∈ behind, c.isDigit = true ∨ c = '+' :=
  h.isDigit_or_plus (by simp [or_comm])

theorem isBlank_of_isDigit_or_plus {c : Char} (h : c.isDigit = true ∨ c = '+') : Text.isBlank c = false := by
  obtain hdigit | rfl := h
  · exact isBlank_of_isDigit hdigit
  · decide

/-- A text starts in the part before the name, and in the name only where there is no such part. -/
theorem mem_head?_of_leads {parents : Option Extent} {before rest : List Char} {c : Char} (h : Leads parents before)
    (hc : c ∈ (before ++ rest).head?) : c ∈ before ∨ (parents = none ∧ c ∈ rest.head?) := by
  cases parents with
  | none =>
    obtain rfl : before = [] := h
    exact .inr ⟨rfl, hc⟩
  | some e =>
    obtain ⟨digits, -, rfl⟩ := h
    rw [List.head?_append_of_ne_nil _ (by simp)] at hc
    exact .inl (List.mem_of_head? hc)

theorem mem_getLast?_of_trails {children : Option Extent} {front behind : List Char} {c : Char}
    (h : Trails children behind) (hc : c ∈ (front ++ behind).getLast?) :
    c ∈ behind ∨ (children = none ∧ c ∈ front.getLast?) := by
  cases children with
  | none =>
    obtain rfl : behind = [] := h
    exact .inr ⟨rfl, by simpa using hc⟩
  | some e =>
    obtain ⟨digits, -, rfl⟩ := h
    rw [List.getLast?_append_of_ne_nil _ (by simp)] at hc
    exact .inl (List.mem_of_getLast? hc)

/-- A plain name with a part behind it is not taken for a part before a name, unless it is a number. -/
theorem noLead_of_trails {children : Option Extent} {name behind : List Char} (h : Trails children behind)
    (hplus : '+' ∉ name) (htold : children ≠ none → ∃ c ∈ name, c.isDigit = false) : NoLead (name ++ behind) := by
  intro digits rest hdigits heq
  cases children with
  | none =>
    obtain rfl : behind = [] := h
    refine hplus ?_
    rw [← List.append_nil name, heq]
    exact List.mem_append_right digits List.mem_cons_self
  | some e =>
    obtain ⟨number, hnumber, rfl⟩ := h
    obtain ⟨c, hc, hdigit⟩ := htold nofun
    -- There is only one plus sign in the text.
    obtain ⟨rfl, -, -⟩ := (List.append_cons_inj_of_notMem hplus (plus_not_mem_of_isDigit hnumber.isDigit)).1 heq
    exact absurd (hdigits c hc) (by simp [hdigit])

/-! ## Whole selectors -/

theorem reads_paddedText {s : Selector} (h : s.Writable) : Reads s (s.paddedText k l) := by
  cases s with
  | family node => exact ⟨rfl, h.ne_nil, h.plus_not_mem⟩
  | around parents node children =>
    obtain ⟨hname, hparents, hchildren, htold⟩ := h
    have hleads : Leads parents (leadText k parents) := part_partText hparents
    have htrails : Trails children (trailText l children) := part_partText hchildren
    refine ⟨fun hat => ?_, hname.ne_nil, _, _, rfl, hleads, ?_, htrails, fun _ => hname.plus_not_mem⟩
    · obtain hlead | ⟨hnone, hfirst⟩ := mem_head?_of_leads hleads hat
      · obtain hdigit | hplus := isDigit_or_plus_of_leads hleads _ hlead
        · cases hdigit
        · cases hplus
      · rw [List.head?_append_of_ne_nil _ hname.ne_nil] at hfirst
        exact (htold hnone).1 hfirst
    · rintro rfl
      change NoLead (node.toList ++ trailText l children)
      exact noLead_of_trails htrails hname.plus_not_mem (htold rfl).2

/-- What is written has no blanks at its ends. -/
theorem isBlank_of_mem_ends {s : Selector} (h : s.Writable) :
    (∀ c ∈ (s.paddedText k l).head?, Text.isBlank c = false) ∧
      ∀ c ∈ (s.paddedText k l).getLast?, Text.isBlank c = false := by
  cases s with
  | family node =>
    refine ⟨?_, fun c hc => ?_⟩
    · rintro c ⟨⟩
      decide
    · rw [paddedText, List.getLast?_cons_of_ne_nil h.ne_nil] at hc
      exact h.last c hc
  | around parents node children =>
    obtain ⟨hname, hparents, hchildren, -⟩ := h
    have hleads : Leads parents (leadText k parents) := part_partText hparents
    have htrails : Trails children (trailText l children) := part_partText hchildren
    constructor
    · intro c hc
      obtain hlead | ⟨-, hfirst⟩ := mem_head?_of_leads hleads hc
      · exact isBlank_of_isDigit_or_plus (isDigit_or_plus_of_leads hleads c hlead)
      · rw [List.head?_append_of_ne_nil _ hname.ne_nil] at hfirst
        exact hname.first c hfirst
    · intro c hc
      rw [paddedText, ← List.append_assoc] at hc
      obtain htrail | ⟨-, hlast⟩ := mem_getLast?_of_trails htrails hc
      · exact isBlank_of_isDigit_or_plus (isDigit_or_plus_of_trails htrails c htrail)
      · rw [List.getLast?_append_of_ne_nil _ hname.ne_nil] at hlast
        exact hname.last c hlast

/-- What is written is read back. A selector that can be told from what is written is read from its text, with any
blanks around it; and a selector that is read from a text is written as that text is, without the blanks around it
and the zeros before its numbers. -/
theorem parse_toText :
    (∀ (s : Selector) (before after : String), s.Writable → (∀ c ∈ before.toList, Text.isBlank c = true) →
      (∀ c ∈ after.toList, Text.isBlank c = true) → parse (before ++ s.toText ++ after) = .ok s) ∧
    (∀ s : Selector, s.toText.toList = s.paddedText 0 0) ∧
    ∀ (text : String) (s : Selector), parse text = .ok s →
      ∃ k l, (Text.trim text).toList = s.paddedText k l := by
  refine ⟨fun s before after h hbefore hafter => ?_, toList_toText, fun text s h => ?_⟩
  · obtain ⟨hfirst, hlast⟩ := isBlank_of_mem_ends (k := 0) (l := 0) h
    rw [parse_eq_ok_iff, String.toList_append, String.toList_append, toList_toText,
      Text.trimList_append hbefore hafter hfirst hlast]
    exact reads_paddedText h
  · rw [Text.trim, String.toList_ofList]
    exact exists_paddedText_of_reads (parse_eq_ok_iff.1 h)

/-- A name of digits and an `@`, behind a number and between blanks that are not all ASCII; and a text with zeros. -/
theorem parse_toText_digits_around :
    parse ("\u00a0\t" ++ (around (some (.edges 7)) "2@5" (some (.edges 10))).toText ++ "\u3000") =
        .ok (.around (some (.edges 7)) "2@5" (some (.edges 10))) ∧
      parse " 007+2@5+" = .ok (.around (some (.edges 7)) "2@5" (some .unbounded)) ∧
      ∃ k l, (Text.trim " 007+2@5+").toList = (around (some (.edges 7)) "2@5" (some .unbounded)).paddedText k l := by
  have hname : PlainName "2@5" :=
    { ne_nil := by decide
      first := by rintro c ⟨⟩; decide
      last := by rintro c ⟨⟩; decide
      plus_not_mem := by decide }
  have hseven : 7 < twoTo 64 := by decide
  have hten : 10 < twoTo 64 := by decide
  have hwritable : Writable (around (some (.edges 7)) "2@5" (some (.edges 10))) :=
    ⟨hname, by rintro e ⟨⟩; exact hseven, by rintro e ⟨⟩; exact hten, nofun⟩
  have hread : parse " 007+2@5+" = .ok (.around (some (.edges 7)) "2@5" (some .unbounded)) := by decide +kernel
  exact ⟨parse_toText.1 _ _ _ hwritable (List.all_eq_true.1 (by decide)) (List.all_eq_true.1 (by decide)), hread,
    parse_toText.2.2 _ _ hread⟩

end Selector

end Lineage
