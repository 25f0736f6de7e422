import Lineage.Text.Blank
import Mathlib.Data.List.DropRight

/-!
# Trimming

A trimmed text has no blanks at its ends, and whatever blanks stand around it are taken off again
(`Text.trimList_append`).
-/

namespace Lineage

namespace Text

theorem trimList_trimList (cs : List Char) : trimList (trimList cs) = trimList cs := by
  have hprefix : trimList cs <+: cs.dropWhile isBlank := List.rdropWhile_prefix isBlank (cs.dropWhile isBlank)
  have hfront : (trimList cs).dropWhile isBlank = trimList cs := by
    refine List.dropWhile_eq_self_iff.2 fun hpos => ?_
    have hfirst := List.IsPrefix.getElem hprefix hpos
    rw [hfirst]
    exact List.dropWhile_eq_self_iff.1 (List.dropWhile_idempotent isBlank cs) _
  calc trimList (trimList cs) = (trimList cs).rdropWhile isBlank := congrArg (List.rdropWhile isBlank) hfront
    _ = trimList cs := List.rdropWhile_idempotent isBlank (cs.dropWhile isBlank)

theorem trim_trim (s : String) : trim (trim s) = trim s := by
  unfold trim
  rw [String.toList_ofList, trimList_trimList]

/-- The blanks around a text are taken off, up to its own ends. -/
theorem trimList_append {before cs after : List Char} (hbefore : ∀ c ∈ before, isBlank c = true)
    (hafter : ∀ c ∈ after, isBlank c = true) (hfirst : ∀ c ∈ cs.head?, isBlank c = false)
    (hlast : ∀ c ∈ cs.getLast?, isBlank c = false) : trimList (before ++ cs ++ after) = cs := by
  have hkept : ∀ l : List Char, (∀ c ∈ l.head?, isBlank c = false) → l.dropWhile isBlank = l := by
    intro l hl
    cases l with
    | nil => rfl
    | cons c l => exact List.dropWhile_cons_of_neg (by simp [hl c rfl])
  unfold trimList
  rw [List.append_assoc, List.dropWhile_append_of_pos hbefore]
  cases cs with
  | nil => simp [List.dropWhile_eq_nil_iff.2 hafter]
  | cons c rest =>
    rw [hkept (c :: rest ++ after) hfirst, List.reverse_append,
      List.dropWhile_append_of_pos fun c hc => hafter c (List.mem_reverse.1 hc),
      hkept _ fun c hc => hlast c (List.head?_reverse ▸ hc), List.reverse_reverse]

end Text

theorem isBlank_of_isDigit {c : Char} (hc : c.isDigit = true) : Text.isBlank c = false := by
  have hlow : 48 ≤ c.toNat := (Char.isDigit_iff_toNat.1 hc).1
  have hhigh : c.toNat ≤ 57 := (Char.isDigit_iff_toNat.1 hc).2
  simp only [Text.isBlank, Bool.or_eq_false_iff, Bool.and_eq_false_iff, decide_eq_false_iff_not, beq_eq_false_iff_ne]
  omega

end Lineage
