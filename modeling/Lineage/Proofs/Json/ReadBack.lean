import Lineage.Proofs.Json.Scalar
import Lineage.Proofs.Json.Value

/-!
# Printed values are read back

Main result:
* `Json.parseFor?_pretty`: the text of a value is read as that value, if it nests no deeper than the reader
  allows, its numbers are read back and the focus leaves nothing of it out.

Each form that a text can have is first shown to be read as it should be. The value is then read back by
induction on `Json.Fits`, and its items and fields by induction on their lists.
-/

namespace Lineage.Json

/-! ## Blanks between tokens -/

/-- What may stand between two tokens. -/
def isGap (c : Char) : Bool := c == ' ' || c == '\n' || c == '\t' || c == '\r'

/-- Nothing but blanks. -/
def Gap (cs : List Char) : Prop := ∀ c ∈ cs, isGap c = true

theorem skipBlanks_gap {gap : List Char} (h : Gap gap) (cs : List Char) :
    skipBlanks (gap ++ cs) = skipBlanks cs :=
  List.dropWhile_append_of_pos h

theorem skipBlanks_cons {c : Char} (h : isGap c = false) (cs : List Char) :
    skipBlanks (c :: cs) = c :: cs := by
  have hkeep : ¬ (c == ' ' || c == '\n' || c == '\t' || c == '\r') = true := by
    rw [Bool.not_eq_true]
    exact h
  exact List.dropWhile_cons_of_neg hkeep

/-- Blanks end a number. -/
theorem endsNumber_gap {gap cs : List Char} (hgap : Gap gap) (h : EndsNumber cs) : EndsNumber (gap ++ cs) := by
  cases gap with
  | nil => exact h
  | cons c gap =>
    have hc : isGap c = true := hgap c List.mem_cons_self
    simp only [isGap, Bool.or_eq_true, beq_iff_eq] at hc
    rcases hc with ((rfl | rfl) | rfl) | rfl
    all_goals
      show _ ∧ _
      decide

/-- The layout puts nothing but blanks between tokens, and a colon behind a name. -/
structure Layout.Blank (layout : Layout) : Prop where
  lineBreak (depth : Nat) : Gap (layout.lineBreak depth)
  colon : ∃ gap, layout.colon = ':' :: gap ∧ Gap gap

theorem Layout.pretty_blank : Layout.pretty.Blank where
  lineBreak depth := by
    intro c hc
    rcases List.mem_cons.1 hc with rfl | hc
    · rfl
    · rw [List.eq_of_mem_replicate hc]
      rfl
  colon := ⟨[' '], rfl, by simp [Gap, isGap]⟩

/-! ## What each form is read as -/

section Forms

variable {focus : Focus} {fuel depth : Nat} {cs rest : List Char}

theorem value?_gap (hf : focus ≠ .nothing) {gap : List Char} (hgap : Gap gap) (cs : List Char) :
    value? fuel depth focus (gap ++ cs) = value? fuel depth focus cs := by
  cases fuel with
  | zero => rw [value?, value?]
  | succ fuel => rw [value?.eq_3 _ _ _ _ hf, value?.eq_3 _ _ _ _ hf, skipBlanks_gap hgap]

theorem value?_null (hf : focus ≠ .nothing) (rest : List Char) :
    value? (fuel + 1) depth focus ('n' :: 'u' :: 'l' :: 'l' :: rest) = some (.null, rest) := by
  rw [value?.eq_3 _ _ _ _ hf, skipBlanks_cons rfl]
  rfl

theorem value?_true (hf : focus ≠ .nothing) (rest : List Char) :
    value? (fuel + 1) depth focus ('t' :: 'r' :: 'u' :: 'e' :: rest) = some (.bool true, rest) := by
  rw [value?.eq_3 _ _ _ _ hf, skipBlanks_cons rfl]
  rfl

theorem value?_false (hf : focus ≠ .nothing) (rest : List Char) :
    value? (fuel + 1) depth focus ('f' :: 'a' :: 'l' :: 's' :: 'e' :: rest) = some (.bool false, rest) := by
  rw [value?.eq_3 _ _ _ _ hf, skipBlanks_cons rfl]
  rfl

theorem value?_str (hf : focus ≠ .nothing) {s : String} (h : textBody? fuel [] cs = some (s, rest)) :
    value? (fuel + 1) depth focus ('"' :: cs) = some (.str s, rest) := by
  rw [value?.eq_3 _ _ _ _ hf, skipBlanks_cons rfl]
  simp only [h, Option.map_some]

/-- The characters that a number begins with. -/
def startsNumber (c : Char) : Bool := c == '-' || c.isDigit

theorem isGap_of_startsNumber {c : Char} (h : startsNumber c = true) : isGap c = false := by
  rw [← Bool.not_eq_true]
  intro hgap
  simp only [isGap, Bool.or_eq_true, beq_iff_eq] at hgap
  rcases hgap with ((rfl | rfl) | rfl) | rfl
  all_goals exact absurd h (by decide)

theorem value?_num (hf : focus ≠ .nothing) {c : Char} (hc : startsNumber c = true) {n : Number}
    (h : number? (c :: cs) = some (n, rest)) :
    value? (fuel + 1) depth focus (c :: cs) = some (.num n, rest) := by
  rw [value?.eq_3 _ _ _ _ hf, skipBlanks_cons (isGap_of_startsNumber hc)]
  split
  case h_7 => rw [h, Option.map_some]
  all_goals
    rename_i heq
    rw [(List.cons.inj heq).1] at hc
    exact absurd hc (by decide)

theorem value?_arr_nil (hf : focus ≠ .nothing) (rest : List Char) :
    value? (fuel + 1) (depth + 1) focus ('[' :: ']' :: rest) = some (.arr [], rest) := by
  rw [value?.eq_3 _ _ _ _ hf, skipBlanks_cons rfl]
  simp only [skipBlanks_cons (c := ']') rfl]

theorem value?_arr (hf : focus ≠ .nothing) {gap : List Char} (hgap : Gap gap) {c : Char}
    (hc : isGap c = false) (hne : c ≠ ']') {items : List Json}
    (h : items? fuel depth focus 0 (c :: cs) = some (items, rest)) :
    value? (fuel + 1) (depth + 1) focus ('[' :: (gap ++ c :: cs)) = some (.arr items, rest) := by
  rw [value?.eq_3 _ _ _ _ hf, skipBlanks_cons rfl]
  simp only [skipBlanks_gap hgap, skipBlanks_cons hc]
  split
  · rename_i heq
    exact absurd (List.cons.inj heq).1 hne
  · rw [h, Option.map_some]

theorem value?_obj_nil (hf : focus ≠ .nothing) (rest : List Char) :
    value? (fuel + 1) (depth + 1) focus ('{' :: '}' :: rest) = some (.obj [], rest) := by
  rw [value?.eq_3 _ _ _ _ hf, skipBlanks_cons rfl]
  simp only [skipBlanks_cons (c := '}') rfl]

theorem value?_obj (hf : focus ≠ .nothing) {gap : List Char} (hgap : Gap gap) {fields : List (String × Json)}
    (h : fields? fuel depth focus ('"' :: cs) = some (fields, rest)) :
    value? (fuel + 1) (depth + 1) focus ('{' :: (gap ++ '"' :: cs)) = some (.obj fields, rest) := by
  rw [value?.eq_3 _ _ _ _ hf, skipBlanks_cons rfl]
  simp only [skipBlanks_gap hgap, skipBlanks_cons (c := '"') rfl]
  split
  · rename_i heq
    exact absurd (List.cons.inj heq).1 (by decide)
  · rw [h, Option.map_some]

section Items

variable {place : Nat} {item : Json} {after : List Char}

theorem items?_last (hitem : value? fuel depth (focus.item place) cs = some (item, after))
    (hafter : skipBlanks after = ']' :: rest) :
    items? (fuel + 1) depth focus place cs = some ([item], rest) := by
  rw [items?, hitem]
  simp only [Option.bind_eq_bind, Option.bind_some, hafter, Option.pure_def]

theorem items?_more (hitem : value? fuel depth (focus.item place) cs = some (item, after)) {more : List Char}
    (hafter : skipBlanks after = ',' :: more) {items : List Json}
    (hitems : items? fuel depth focus (place + 1) more = some (items, rest)) :
    items? (fuel + 1) depth focus place cs = some (item :: items, rest) := by
  rw [items?, hitem]
  simp only [Option.bind_eq_bind, Option.bind_some, hafter, hitems, Option.pure_def]

end Items

section Fields

variable {name : String} {value : Json} {afterName beforeValue after : List Char}

theorem fields?_gap {gap : List Char} (hgap : Gap gap) (cs : List Char) :
    fields? fuel depth focus (gap ++ cs) = fields? fuel depth focus cs := by
  cases fuel with
  | zero => rw [fields?, fields?]
  | succ fuel => rw [fields?, fields?, skipBlanks_gap hgap]

theorem keep_eq (hf : focus.field name ≠ .nothing) (value : Json) : focus.keep name value = [(name, value)] := by
  unfold Focus.keep
  split
  · contradiction
  · rfl

theorem fields?_last (hf : focus.field name ≠ .nothing)
    (hname : textBody? fuel [] cs = some (name, afterName)) (hcolon : skipBlanks afterName = ':' :: beforeValue)
    (hvalue : value? fuel depth (focus.field name) beforeValue = some (value, after))
    (hafter : skipBlanks after = '}' :: rest) :
    fields? (fuel + 1) depth focus ('"' :: cs) = some ([(name, value)], rest) := by
  rw [fields?, skipBlanks_cons rfl]
  simp only [Option.bind_eq_bind, hname, Option.bind_some, hcolon, hvalue, hafter, keep_eq hf, Option.pure_def]

theorem fields?_more (hf : focus.field name ≠ .nothing)
    (hname : textBody? fuel [] cs = some (name, afterName)) (hcolon : skipBlanks afterName = ':' :: beforeValue)
    (hvalue : value? fuel depth (focus.field name) beforeValue = some (value, after)) {more : List Char}
    (hafter : skipBlanks after = ',' :: more) {fields : List (String × Json)}
    (hfields : fields? fuel depth focus more = some (fields, rest)) :
    fields? (fuel + 1) depth focus ('"' :: cs) = some ((name, value) :: fields, rest) := by
  rw [fields?, skipBlanks_cons rfl]
  simp only [Option.bind_eq_bind, hname, Option.bind_some, hcolon, hvalue, hafter, keep_eq hf, hfields,
    Option.pure_def, List.singleton_append]

end Fields

end Forms

/-! ## Numbers -/

theorem startsNumber_of_numeral? {cs rest : List Char} {n : Numeral} (h : numeral? cs = some (n, rest)) :
    ∃ c cs', cs = c :: cs' ∧ startsNumber c = true := by
  cases cs with
  | nil => cases h
  | cons c cs =>
    refine ⟨c, cs, rfl, ?_⟩
    by_cases hminus : c = '-'
    · rw [hminus]
      rfl
    by_cases hdigit : c.isDigit = true
    · rw [startsNumber, hdigit, Bool.or_true]
    · rw [numeral?_cons hminus, unsignedNumeral?, wholePart?, spanDigits_cons, if_neg hdigit] at h
      cases h

theorem Number.ReadsBack.startsNumber {n : Number} (h : n.ReadsBack) :
    ∃ c cs, n.text = c :: cs ∧ startsNumber c = true := by
  unfold ReadsBack number? at h
  obtain ⟨⟨numeral, rest⟩, hnumeral, -⟩ := Option.bind_eq_some_iff.1 h
  exact startsNumber_of_numeral? hnumeral

/-! ## Values -/

section Values

variable {layout : Layout} {focus : Focus} {depth : Nat}

/-- Where the value is printed, behind blanks and before what cannot belong to a number, it is read, given
as much fuel as it is long. -/
def Restored (layout : Layout) (focus : Focus) (depth : Nat) (v : Json) : Prop :=
  ∀ (gap : List Char) (place fuel : Nat) (rest : List Char), Gap gap →
    (v.render layout place).length ≤ fuel → EndsNumber rest →
    value? fuel depth focus (gap ++ (v.render layout place ++ rest)) = some (v, rest)

/-- A printed value begins with a character that no reader skips or takes for an end. -/
theorem Fits.render_eq_cons {v : Json} (h : Fits Number.ReadsBack focus depth v) (layout : Layout) (place : Nat) :
    ∃ c cs, v.render layout place = c :: cs ∧ isGap c = false ∧ c ≠ ']' := by
  cases h with
  | null => exact ⟨_, _, rfl, rfl, by decide⟩
  | @bool _ _ b => cases b <;> exact ⟨_, _, rfl, rfl, by decide⟩
  | num _ hn =>
    obtain ⟨c, cs, htext, hc⟩ := hn.startsNumber
    refine ⟨c, cs, htext, isGap_of_startsNumber hc, ?_⟩
    rintro rfl
    cases hc
  | str => exact ⟨_, _, rfl, rfl, by decide⟩
  | @arr _ _ items => cases items <;> exact ⟨_, _, rfl, rfl, by decide⟩
  | @obj _ _ fields => cases fields <;> exact ⟨_, _, rfl, rfl, by decide⟩

/-- The items of an array, printed one behind the other up to the closing bracket. -/
theorem items?_render (hl : layout.Blank) {item : Json} {items : List Json} {start : Nat}
    (h : ∀ place it, (item :: items)[place]? = some it → Restored layout (focus.item (start + place)) depth it)
    (gap : List Char) (hgap : Gap gap) (deep shallow fuel : Nat) (rest : List Char)
    (hfuel : (item.render layout deep ++ renderItems layout deep items).length < fuel) :
    items? fuel depth focus start
      (gap ++ (item.render layout deep ++
        (renderItems layout deep items ++ (layout.lineBreak shallow ++ ']' :: rest)))) =
      some (item :: items, rest) := by
  have hitem : Restored layout (focus.item start) depth item := h 0 item rfl
  induction items generalizing item start gap fuel with
  | nil =>
    obtain ⟨fuel, rfl⟩ := Nat.exists_eq_add_of_lt (Nat.zero_lt_of_lt hfuel)
    simp only [renderItems, List.append_nil, List.nil_append, Nat.zero_add] at hfuel ⊢
    refine items?_last (hitem _ _ _ _ hgap (by omega) ?_) ?_
    · exact endsNumber_gap (hl.lineBreak shallow) (by simp [EndsNumber])
    · rw [skipBlanks_gap (hl.lineBreak shallow), skipBlanks_cons rfl]
  | cons next items ih =>
    obtain ⟨fuel, rfl⟩ := Nat.exists_eq_add_of_lt (Nat.zero_lt_of_lt hfuel)
    simp only [renderItems, List.append_assoc, List.cons_append, Nat.zero_add, List.length_append,
      List.length_cons] at hfuel ⊢
    have hnext : ∀ place it, (next :: items)[place]? = some it →
        Restored layout (focus.item (start + 1 + place)) depth it := by
      intro place it hplace
      rw [Nat.add_assoc, Nat.add_comm 1]
      exact h (place + 1) it hplace
    refine items?_more (hitem _ _ _ _ hgap (by omega) (by simp [EndsNumber])) (skipBlanks_cons rfl _) ?_
    refine ih hnext _ (hl.lineBreak deep) fuel ?_ (hnext 0 next rfl)
    rw [List.length_append]
    omega

/-- The fields of an object, printed one behind the other up to the closing brace. -/
theorem fields?_render (hl : layout.Blank) {name : String} {value : Json} {fields : List (String × Json)}
    (hkept : ∀ field ∈ (name, value) :: fields, focus.field field.1 ≠ .nothing)
    (h : ∀ field ∈ (name, value) :: fields, Restored layout (focus.field field.1) depth field.2)
    (deep shallow fuel : Nat) (rest : List Char)
    (hfuel : (quote name ++ (value.render layout deep ++ renderFields layout deep fields)).length < fuel) :
    fields? fuel depth focus
      (quote name ++ (layout.colon ++ (value.render layout deep ++
        (renderFields layout deep fields ++ (layout.lineBreak shallow ++ '}' :: rest))))) =
      some ((name, value) :: fields, rest) := by
  obtain ⟨gap, hcolon, hgap⟩ := hl.colon
  induction fields generalizing name value fuel with
  | nil =>
    have hfocus : focus.field name ≠ .nothing := hkept _ List.mem_cons_self
    have hvalue : Restored layout (focus.field name) depth value := h _ List.mem_cons_self
    obtain ⟨fuel, rfl⟩ := Nat.exists_eq_add_of_lt (Nat.zero_lt_of_lt hfuel)
    simp only [renderFields, List.append_nil, List.nil_append, Nat.zero_add, List.length_append] at hfuel ⊢
    rw [quote_append, hcolon]
    refine fields?_last hfocus (textBody?_quote name _ (by omega)) (skipBlanks_cons rfl _)
      (hvalue _ _ _ _ hgap (by omega) ?_) ?_
    · exact endsNumber_gap (hl.lineBreak shallow) (by simp [EndsNumber])
    · rw [skipBlanks_gap (hl.lineBreak shallow), skipBlanks_cons rfl]
  | cons next fields ih =>
    have hfocus : focus.field name ≠ .nothing := hkept _ List.mem_cons_self
    have hvalue : Restored layout (focus.field name) depth value := h _ List.mem_cons_self
    obtain ⟨fuel, rfl⟩ := Nat.exists_eq_add_of_lt (Nat.zero_lt_of_lt hfuel)
    obtain ⟨nextName, nextValue⟩ := next
    simp only [renderFields, List.append_assoc, List.cons_append, Nat.zero_add, List.length_append,
      List.length_cons] at hfuel ⊢
    rw [quote_append, hcolon]
    refine fields?_more hfocus (textBody?_quote name _ (by omega)) (skipBlanks_cons rfl _)
      (hvalue _ _ _ _ hgap (by omega) (by simp [EndsNumber])) (skipBlanks_cons rfl _) ?_
    rw [fields?_gap (hl.lineBreak deep), ← hcolon]
    refine ih (fun field hfield => hkept field (List.mem_cons_of_mem _ hfield))
      (fun field hfield => h field (List.mem_cons_of_mem _ hfield)) fuel ?_
    simp only [List.length_append]
    omega

/-- Blanks before a value are skipped, and what is printed takes at least one unit of fuel. -/
theorem Fits.restored_of_value? {v : Json} (h : Fits Number.ReadsBack focus depth v)
    (hread : ∀ (place fuel : Nat) (rest : List Char), (v.render layout place).length ≤ fuel + 1 →
      EndsNumber rest → value? (fuel + 1) depth focus (v.render layout place ++ rest) = some (v, rest)) :
    Restored layout focus depth v := by
  intro gap place fuel rest hgap hfuel hrest
  obtain ⟨c, cs, hcons, -, -⟩ := h.render_eq_cons layout place
  have hpos : 0 < (v.render layout place).length := by
    rw [hcons]
    exact Nat.succ_pos _
  obtain ⟨fuel, rfl⟩ : ∃ smaller, fuel = smaller + 1 := ⟨fuel - 1, by omega⟩
  rw [value?_gap h.kept hgap]
  exact hread place fuel rest hfuel hrest

theorem Fits.restored (hl : layout.Blank) {v : Json} (h : Fits Number.ReadsBack focus depth v) :
    Restored layout focus depth v := by
  induction h with
  | null kept => exact (Fits.null kept).restored_of_value? fun _ _ rest _ _ => value?_null kept rest
  | @bool _ _ b kept =>
    refine (Fits.bool kept).restored_of_value? fun _ _ rest _ _ => ?_
    cases b with
    | false => exact value?_false kept rest
    | true => exact value?_true kept rest
  | @num _ _ n kept hn =>
    refine (Fits.num kept hn).restored_of_value? fun place fuel rest _ hrest => ?_
    obtain ⟨c, cs, htext, hc⟩ := hn.startsNumber
    have hread : number? (n.text ++ rest) = some (n, rest) := number?_append hrest hn
    rw [htext] at hread
    rw [render, htext]
    exact value?_num kept hc hread
  | @str _ _ s kept =>
    refine (Fits.str kept).restored_of_value? fun place fuel rest hfuel _ => ?_
    rw [render, quote_append]
    exact value?_str kept (textBody?_quote s rest hfuel)
  | @arr focus depth items kept h ih =>
    refine (Fits.arr kept h).restored_of_value? fun place fuel rest hfuel _ => ?_
    cases items with
    | nil => exact value?_arr_nil kept rest
    | cons item items =>
      obtain ⟨c, cs, hcons, hc, hne⟩ := (h 0 item rfl).render_eq_cons layout (place + 1)
      have hplaces : ∀ i it, (item :: items)[i]? = some it → Restored layout (focus.item (0 + i)) depth it := by
        intro i it hi
        rw [Nat.zero_add]
        exact ih i it hi
      simp only [render, List.length_append, List.length_cons] at hfuel
      have hitems := items?_render hl hplaces [] nofun (place + 1) place fuel rest
        (by rw [List.length_append]; omega)
      rw [hcons, List.nil_append, List.cons_append] at hitems
      simp only [render, hcons, List.cons_append, List.append_assoc, List.nil_append]
      exact value?_arr kept (hl.lineBreak _) hc hne hitems
  | @obj focus depth fields kept h ih =>
    refine (Fits.obj kept h).restored_of_value? fun place fuel rest hfuel _ => ?_
    cases fields with
    | nil => exact value?_obj_nil kept rest
    | cons field fields =>
      obtain ⟨name, value⟩ := field
      simp only [render, List.length_append, List.length_cons] at hfuel
      have hfields := fields?_render hl (fun field hfield => (h field.1 field.2 hfield).kept)
        (fun field hfield => ih field.1 field.2 hfield) (place + 1) place fuel rest
        (by simp only [List.length_append]; omega)
      rw [quote_append] at hfields
      simp only [render, List.cons_append, List.append_assoc, List.nil_append, quote_append]
      exact value?_obj kept (hl.lineBreak _) hfields

/-- A value is read from its text on several lines. -/
theorem parseFor?_pretty {v : Json} (h : Fits Number.ReadsBack focus depthLimit v) :
    parseFor? focus v.pretty = some v := by
  have hread := h.restored Layout.pretty_blank [] 0 (2 * (v.render .pretty 0).length + 2) [] nofun (by omega)
    trivial
  rw [List.nil_append, List.append_nil] at hread
  simp only [parseFor?, pretty, String.toList_ofList, hread]
  rfl

end Values

end Lineage.Json
