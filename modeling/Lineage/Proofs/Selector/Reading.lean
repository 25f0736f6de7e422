import Lineage.Proofs.Decimal.Spelling
import Lineage.Proofs.Json.Exact
import Lineage.Proofs.Text.Trim
import Lineage.Selector

/-!
# Reading selectors

A text is read as a selector if and only if it is one of the forms of that selector (`Selector.parse_eq_ok_iff`):
a part before the name wherever there is one, the name, and a part behind it. A plus sign in the name is refused
only where nothing stands behind the name. Where the text ends in a plus sign, or in one and a number, all before
that belongs to the name, with any further plus signs (`Selector.parse_leftover_plus_iff`).
-/

namespace Lineage

namespace Selector

variable {cs rest name : List Char} {parents children : Option Extent} {e : Extent}

/-! ## Parts -/

/-- The digits that may stand for an extent: none if it is unbounded, and otherwise those of a number that fits
64 bits. -/
inductive SpelledBy : Extent → List Char → Prop
  | unbounded : SpelledBy .unbounded []
  | edges {digits : List Char} : digits ≠ [] → (∀ c ∈ digits, c.isDigit = true) →
      Decimal.ofDigits digits < twoTo 64 → SpelledBy (.edges (Decimal.ofDigits digits)) digits

/-- A part next to a name: nothing, or the digits of an extent with a plus sign, where `place` puts it. -/
def Part (place : List Char → List Char) : Option Extent → List Char → Prop
  | none, part => part = []
  | some e, part => ∃ digits, SpelledBy e digits ∧ part = place digits

/-- The part before a name. -/
def Leads : Option Extent → List Char → Prop := Part fun digits => digits ++ ['+']

/-- The part behind a name. -/
def Trails : Option Extent → List Char → Prop := Part fun digits => '+' :: digits

/-- The text does not start with a plus sign, nor with a number and one. -/
def NoLead (cs : List Char) : Prop :=
  ∀ digits rest, (∀ c ∈ digits, c.isDigit = true) → cs ≠ digits ++ '+' :: rest

/-- The text does not end in a plus sign, nor in one and a number. -/
def NoTrail (cs : List Char) : Prop :=
  ∀ front digits, (∀ c ∈ digits, c.isDigit = true) → cs ≠ front ++ '+' :: digits

theorem SpelledBy.isDigit {digits : List Char} (h : SpelledBy e digits) : ∀ c ∈ digits, c.isDigit = true := by
  cases h with
  | unbounded => exact nofun
  | edges _ hdigits => exact hdigits

theorem plus_not_mem_of_isDigit {digits : List Char} (h : ∀ c ∈ digits, c.isDigit = true) : '+' ∉ digits :=
  fun hmem => absurd (h _ hmem) (by decide)

/-- The extent that digits stand for, unbounded without any; `text` is quoted if it is too large. -/
def extentOf (digits text : List Char) : Except SelectorError Extent :=
  if digits = [] then .ok .unbounded else extent digits text

theorem extentOf_eq_ok_iff {digits text : List Char} (hdigits : ∀ c ∈ digits, c.isDigit = true) :
    extentOf digits text = .ok e ↔ SpelledBy e digits := by
  unfold extentOf
  by_cases hnil : digits = []
  · rw [if_pos hnil, hnil]
    constructor
    · rintro ⟨⟩
      exact .unbounded
    · rintro (_ | hne)
      · rfl
      · exact absurd rfl hne
  · rw [if_neg hnil]
    constructor
    · intro h
      simp only [extent] at h
      split at h
      · cases h
        exact .edges hnil hdigits ‹_›
      · cases h
    · rintro (_ | ⟨_, _, hlt⟩)
      · exact absurd rfl hnil
      · exact if_pos hlt

/-- A number is refused only for its size. -/
theorem extentOf_ne_strayPlus {digits text : List Char} {quoted : String} :
    extentOf digits text ≠ .error (.strayPlus quoted) := by
  unfold extentOf
  split
  · exact nofun
  · simp only [extent]
    split <;> exact nofun

theorem map_eq_ok_iff {ε α β : Type} {f : α → β} {x : Except ε α} {b : β} :
    x.map f = .ok b ↔ ∃ a, x = .ok a ∧ f a = b := by
  cases x <;> simp [Except.map]

theorem bind_eq_ok_iff {ε α β : Type} {x : Except ε α} {f : α → Except ε β} {b : β} :
    x >>= f = .ok b ↔ ∃ a, x = .ok a ∧ f a = .ok b := by
  cases x <;> simp [bind, Except.bind]

theorem map_eq_error_iff {ε α β : Type} {f : α → β} {x : Except ε α} {a : ε} :
    x.map f = .error a ↔ x = .error a := by
  cases x <;> simp [Except.map]

theorem bind_eq_error_iff {ε α β : Type} {x : Except ε α} {f : α → Except ε β} {a : ε} :
    x >>= f = .error a ↔ x = .error a ∨ ∃ b, x = .ok b ∧ f b = .error a := by
  cases x <;> simp [bind, Except.bind]

/-! ## The part before the name -/

theorem takeParents_plus {digits : List Char} (hdigits : ∀ c ∈ digits, c.isDigit = true) :
    takeParents (digits ++ '+' :: rest) =
      (extentOf digits (digits ++ '+' :: rest)).map fun e => (some e, rest) := by
  have hspan : Decimal.spanDigits (digits ++ '+' :: rest) = (digits, '+' :: rest) :=
    spanDigits_append_of_forall hdigits (by simp)
  unfold takeParents
  rw [hspan]
  cases digits <;> rfl

theorem takeParents_of_noLead (h : NoLead cs) : takeParents cs = .ok (none, cs) := by
  obtain ⟨happend, hdigits⟩ := Json.spanDigits_spec cs
  unfold takeParents
  split
  · rename_i rest hspan
    rw [hspan] at happend
    exact absurd happend.symm (h [] rest nofun)
  · rename_i digits rest _ hspan
    rw [hspan] at happend hdigits
    exact absurd happend.symm (h digits rest hdigits)
  · rfl

/-- A part before the name is taken wherever there is one. -/
theorem takeParents_eq_ok_iff :
    takeParents cs = .ok (parents, rest) ↔
      ∃ before, cs = before ++ rest ∧ Leads parents before ∧ (parents = none → NoLead cs) := by
  constructor
  · intro h
    by_cases hlead : NoLead cs
    · rw [takeParents_of_noLead hlead] at h
      cases h
      exact ⟨[], rfl, rfl, fun _ => hlead⟩
    · unfold NoLead at hlead
      push Not at hlead
      obtain ⟨digits, rest', hdigits, rfl⟩ := hlead
      rw [takeParents_plus hdigits, map_eq_ok_iff] at h
      obtain ⟨e, he, heq⟩ := h
      cases heq
      exact ⟨digits ++ ['+'], by simp, ⟨digits, (extentOf_eq_ok_iff hdigits).1 he, rfl⟩, nofun⟩
  · rintro ⟨before, rfl, hbefore, hnone⟩
    cases parents with
    | none =>
      obtain rfl : before = [] := hbefore
      exact takeParents_of_noLead (hnone rfl)
    | some e =>
      obtain ⟨digits, hspelled, rfl⟩ := hbefore
      rw [List.append_assoc, List.singleton_append, takeParents_plus hspelled.isDigit, map_eq_ok_iff]
      exact ⟨e, (extentOf_eq_ok_iff hspelled.isDigit).2 hspelled, rfl⟩

theorem takeParents_ne_strayPlus {quoted : String} : takeParents cs ≠ .error (.strayPlus quoted) := by
  by_cases hlead : NoLead cs
  · rw [takeParents_of_noLead hlead]
    exact nofun
  · unfold NoLead at hlead
    push Not at hlead
    obtain ⟨digits, rest, hdigits, rfl⟩ := hlead
    rw [takeParents_plus hdigits, Ne, map_eq_error_iff]
    exact extentOf_ne_strayPlus

/-! ## The part behind the name -/

theorem ne_plus_of_mem_reverse (h : '+' ∉ cs) : ∀ c ∈ cs.reverse, (c != '+') = true := by
  intro c hc
  have hne : c ≠ '+' := fun heq => h (heq ▸ List.mem_reverse.1 hc)
  simpa using hne

theorem cutAtLastPlus_of_not_mem (h : '+' ∉ cs) : cutAtLastPlus cs = none := by
  unfold cutAtLastPlus
  rw [List.span_eq_takeWhile_dropWhile, List.dropWhile_eq_nil_iff.2 (ne_plus_of_mem_reverse h)]

theorem cutAtLastPlus_append {behind : List Char} (h : '+' ∉ behind) :
    cutAtLastPlus (name ++ '+' :: behind) = some (name, behind) := by
  have hreverse : (name ++ '+' :: behind).reverse = behind.reverse ++ '+' :: name.reverse := by simp
  unfold cutAtLastPlus
  rw [hreverse, List.span_eq_takeWhile_dropWhile, List.takeWhile_append_of_pos (ne_plus_of_mem_reverse h),
    List.dropWhile_append_of_pos (ne_plus_of_mem_reverse h)]
  simp

theorem takeChildren_of_not_mem (h : '+' ∉ cs) : takeChildren cs = .ok (cs, none) := by
  unfold takeChildren
  rw [cutAtLastPlus_of_not_mem h]

theorem takeChildren_append {behind : List Char} (h : '+' ∉ behind) :
    takeChildren (name ++ '+' :: behind) =
      if behind.all Char.isDigit then
        (extentOf behind (name ++ '+' :: behind)).map fun e => (name, some e)
      else .error (.strayPlus (String.ofList (name ++ '+' :: behind))) := by
  unfold takeChildren
  rw [cutAtLastPlus_append h]
  cases behind <;> rfl

theorem exists_last_plus (h : '+' ∈ cs) : ∃ front behind, cs = front ++ '+' :: behind ∧ '+' ∉ behind := by
  obtain ⟨back, front, hcs, hnot⟩ := List.eq_append_cons_of_mem (List.mem_reverse.2 h)
  refine ⟨front.reverse, back.reverse, ?_, by simpa using hnot⟩
  rw [← cs.reverse_reverse, hcs]
  simp

/-- A part behind the name is taken wherever there is one, and no plus sign is left over where there is none. -/
theorem takeChildren_eq_ok_iff :
    takeChildren cs = .ok (name, children) ↔
      ∃ behind, cs = name ++ behind ∧ Trails children behind ∧ (children = none → '+' ∉ name) := by
  constructor
  · intro h
    by_cases hplus : '+' ∈ cs
    · obtain ⟨front, behind, rfl, hbehind⟩ := exists_last_plus hplus
      rw [takeChildren_append hbehind] at h
      split at h
      · rename_i hdigits
        obtain ⟨e, he, heq⟩ := map_eq_ok_iff.1 h
        cases heq
        exact ⟨_, rfl, ⟨behind, (extentOf_eq_ok_iff (List.all_eq_true.1 hdigits)).1 he, rfl⟩, nofun⟩
      · cases h
    · rw [takeChildren_of_not_mem hplus] at h
      cases h
      exact ⟨[], (List.append_nil cs).symm, rfl, fun _ => hplus⟩
  · rintro ⟨behind, rfl, hbehind, hnone⟩
    cases children with
    | none =>
      obtain rfl : behind = [] := hbehind
      rw [List.append_nil]
      exact takeChildren_of_not_mem (hnone rfl)
    | some e =>
      obtain ⟨digits, hspelled, rfl⟩ := hbehind
      rw [takeChildren_append (plus_not_mem_of_isDigit hspelled.isDigit),
        if_pos (List.all_eq_true.2 hspelled.isDigit), map_eq_ok_iff]
      exact ⟨e, (extentOf_eq_ok_iff hspelled.isDigit).2 hspelled, rfl⟩

/-- A plus sign is refused as stray where there is one, but no part behind the name. -/
theorem takeChildren_eq_strayPlus_iff {quoted : String} :
    takeChildren cs = .error (.strayPlus quoted) ↔ '+' ∈ cs ∧ NoTrail cs ∧ quoted = String.ofList cs := by
  by_cases hplus : '+' ∈ cs
  · obtain ⟨front, behind, rfl, hbehind⟩ := exists_last_plus hplus
    rw [takeChildren_append hbehind]
    by_cases hdigits : behind.all Char.isDigit
    · rw [if_pos hdigits, map_eq_error_iff]
      refine iff_of_false extentOf_ne_strayPlus ?_
      rintro ⟨-, htrail, -⟩
      exact htrail front behind (List.all_eq_true.1 hdigits) rfl
    · rw [if_neg hdigits, Except.error.injEq, SelectorError.strayPlus.injEq]
      have htrail : NoTrail (front ++ '+' :: behind) := by
        intro front' digits hall heq
        have hcut : cutAtLastPlus (front ++ '+' :: behind) = some (front, behind) := cutAtLastPlus_append hbehind
        rw [heq, cutAtLastPlus_append (plus_not_mem_of_isDigit hall)] at hcut
        cases hcut
        exact hdigits (List.all_eq_true.2 hall)
      simp [htrail, eq_comm]
  · rw [takeChildren_of_not_mem hplus]
    simp [hplus]

/-! ## Whole selectors -/

/-- The texts, without blanks at their ends, that are read as a selector. -/
def Reads : Selector → List Char → Prop
  | .family node, cs => cs = '@' :: node.toList ∧ node.toList ≠ [] ∧ '+' ∉ node.toList
  | .around parents node children, cs =>
    cs.head? ≠ some '@' ∧ node.toList ≠ [] ∧
      ∃ before behind, cs = before ++ (node.toList ++ behind) ∧ Leads parents before ∧
        (parents = none → NoLead cs) ∧ Trails children behind ∧ (children = none → '+' ∉ node.toList)

theorem reads_at_iff {s : Selector} :
    Reads s ('@' :: name) ↔ name ≠ [] ∧ '+' ∉ name ∧ s = .family (String.ofList name) := by
  cases s with
  | family node =>
    simp only [Reads, List.cons.injEq, true_and, Selector.family.injEq]
    constructor
    · rintro ⟨rfl, hne, hplus⟩
      exact ⟨hne, hplus, String.ofList_toList.symm⟩
    · rintro ⟨hne, hplus, rfl⟩
      rw [String.toList_ofList]
      exact ⟨rfl, hne, hplus⟩
  | around => simp [Reads]

theorem reads_iff_of_ne_at {s : Selector} (hat : cs.head? ≠ some '@') :
    Reads s cs ↔ ∃ parents rest, takeParents cs = .ok (parents, rest) ∧
      ∃ name children, takeChildren rest = .ok (name, children) ∧ name ≠ [] ∧
        s = .around parents (String.ofList name) children := by
  simp only [takeParents_eq_ok_iff, takeChildren_eq_ok_iff]
  cases s with
  | family node =>
    refine iff_of_false ?_ (by simp)
    rintro ⟨rfl, -⟩
    exact hat rfl
  | around parents node children =>
    constructor
    · rintro ⟨-, hne, before, behind, hcs, hleads, hlead, htrails, hplus⟩
      exact ⟨parents, _, ⟨before, hcs, hleads, hlead⟩, _, children, ⟨behind, rfl, htrails, hplus⟩, hne,
        by rw [String.ofList_toList]⟩
    · rintro ⟨parents, _, ⟨before, hcs, hleads, hlead⟩, name, children, ⟨behind, rfl, htrails, hplus⟩, hne, ⟨⟩⟩
      rw [← String.toList_ofList (l := name)] at hcs hplus hne
      exact ⟨hat, hne, before, behind, hcs, hleads, hlead, htrails, hplus⟩

theorem parse_of_at {text : String} (h : Text.trimList text.toList = '@' :: name) :
    parse text = if name.isEmpty || name.contains '+' then .error (.mixedForms (Text.trim text))
      else .ok (.family (String.ofList name)) := by
  simp only [parse, Text.trim, String.toList_ofList, h]

theorem parse_of_ne_at {text : String} (hat : (Text.trimList text.toList).head? ≠ some '@') :
    parse text = (do
      let (parents, rest) ← takeParents (Text.trimList text.toList)
      let (name, children) ← takeChildren rest
      if name.isEmpty then .error (.missingName (Text.trim text))
      else .ok (.around parents (String.ofList name) children)) := by
  simp only [parse, Text.trim, String.toList_ofList]
  generalize Text.trimList text.toList = cs at hat
  split
  · exact absurd rfl hat
  · rfl

/-- What a text is read as, if it is not refused. -/
theorem parse_eq_ok_iff {text : String} {s : Selector} :
    parse text = .ok s ↔ Reads s (Text.trimList text.toList) := by
  by_cases hat : (Text.trimList text.toList).head? = some '@'
  · obtain ⟨name, hname⟩ := List.head?_eq_some_iff.1 hat
    rw [parse_of_at hname, hname, reads_at_iff]
    by_cases hrefused : (name.isEmpty || name.contains '+') = true
    · rw [if_pos hrefused]
      refine iff_of_false nofun ?_
      rintro ⟨hne, hplus, -⟩
      simp [hne, hplus] at hrefused
    · rw [if_neg hrefused]
      simp only [Bool.or_eq_true, List.isEmpty_iff, List.contains_iff_mem, not_or] at hrefused
      simp [hrefused, @eq_comm _ s]
  · rw [parse_of_ne_at hat, reads_iff_of_ne_at hat, bind_eq_ok_iff, Prod.exists]
    refine exists_congr fun parents => exists_congr fun rest => and_congr_right fun _ => ?_
    rw [bind_eq_ok_iff, Prod.exists]
    refine exists_congr fun name => exists_congr fun children => and_congr_right fun _ => ?_
    by_cases hne : name = []
    · simp [hne]
    · simp [hne, @eq_comm _ s]

theorem parse_eq_strayPlus_iff {text quoted : String} :
    parse text = .error (.strayPlus quoted) ↔ (Text.trimList text.toList).head? ≠ some '@' ∧
      ∃ parents rest, takeParents (Text.trimList text.toList) = .ok (parents, rest) ∧
        takeChildren rest = .error (.strayPlus quoted) := by
  by_cases hat : (Text.trimList text.toList).head? = some '@'
  · obtain ⟨name, hname⟩ := List.head?_eq_some_iff.1 hat
    refine iff_of_false ?_ fun h => h.1 hat
    rw [parse_of_at hname]
    split <;> exact nofun
  · rw [parse_of_ne_at hat, bind_eq_error_iff, or_iff_right takeParents_ne_strayPlus, Prod.exists,
      and_iff_right hat]
    refine exists_congr fun parents => exists_congr fun rest => and_congr_right fun _ => ?_
    rw [bind_eq_error_iff, or_iff_left]
    rintro ⟨⟨name, children⟩, -, hrefused⟩
    dsimp only at hrefused
    split at hrefused <;> cases hrefused

/-- **Plus signs that are left over.** A text that does not start with `@` is cut behind its leading part. A plus
sign in what is left makes it refused as stray if and only if what is left does not end in a plus sign, or in one
and a number. If it does, with a number that fits 64 bits, the text is read, and all further plus signs belong to
the name; no other text is read with a plus sign in the name. -/
theorem parse_leftover_plus_iff (text : String) :
    let cs := Text.trimList text.toList
    (∀ quoted, parse text = .error (.strayPlus quoted) ↔
      cs.head? ≠ some '@' ∧ ∃ parents before rest, cs = before ++ rest ∧ Leads parents before ∧
        (parents = none → NoLead cs) ∧ '+' ∈ rest ∧ NoTrail rest ∧ quoted = String.ofList rest) ∧
    ((∃ s, parse text = .ok s ∧ '+' ∈ s.node.toList) ↔
      cs.head? ≠ some '@' ∧ ∃ parents before name e behind, cs = before ++ (name ++ behind) ∧ Leads parents before ∧
        (parents = none → NoLead cs) ∧ Trails (some e) behind ∧ '+' ∈ name) := by
  intro cs
  constructor
  · intro quoted
    simp only [parse_eq_strayPlus_iff, takeParents_eq_ok_iff, takeChildren_eq_strayPlus_iff]
    constructor
    · rintro ⟨hat, parents, rest, ⟨before, hcs, hleads, hlead⟩, hstray⟩
      exact ⟨hat, parents, before, rest, hcs, hleads, hlead, hstray⟩
    · rintro ⟨hat, parents, before, rest, hcs, hleads, hlead, hstray⟩
      exact ⟨hat, parents, rest, ⟨before, hcs, hleads, hlead⟩, hstray⟩
  · constructor
    · rintro ⟨s, hs, hplus⟩
      have hreads := parse_eq_ok_iff.1 hs
      cases s with
      | family node => exact absurd hplus hreads.2.2
      | around parents node children =>
        obtain ⟨hat, -, before, behind, hcs, hleads, hlead, htrails, hnone⟩ := hreads
        cases children with
        | none => exact absurd hplus (hnone rfl)
        | some e => exact ⟨hat, parents, before, node.toList, e, behind, hcs, hleads, hlead, htrails, hplus⟩
    · rintro ⟨hat, parents, before, name, e, behind, hcs, hleads, hlead, htrails, hplus⟩
      refine ⟨.around parents (String.ofList name) (some e), parse_eq_ok_iff.2 ?_, ?_⟩
      · simp only [Reads, String.toList_ofList]
        exact ⟨hat, List.ne_nil_of_mem hplus, before, behind, hcs, hleads, hlead, htrails, nofun⟩
      · rwa [node, String.toList_ofList]

/-- The plus sign between `a` and `b` is left over, and the text is read all the same. -/
theorem parse_keeps_inner_plus :
    parse "a+b+" = .ok (.around none "a+b" (some .unbounded)) ∧
      ¬ ∀ text s, parse text = .ok s → '+' ∉ s.node.toList := by
  have hread : parse "a+b+" = .ok (.around none "a+b" (some .unbounded)) := by decide +kernel
  exact ⟨hread, fun h => absurd (h _ _ hread) (by decide +kernel)⟩

end Selector

end Lineage
