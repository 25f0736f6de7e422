import Lineage.Json.Printer
import Lineage.Text.Blank

/-!
# Versions

A version is written as a number or as a text. Both have one normal form, so that `2`, `2.0` and
`"2"` are the same version: a whole number below `10 ^ 15` in its shortest decimal writing, and any
other text without the blanks around it.
-/

namespace Lineage.Version

/-- The whole number that a text denotes as a double, if it lies below `10 ^ 15`. -/
def wholeNumber? (s : String) : Option Int :=
  match Double.parse? s with
  | some (.finite x) => x.toInt?.filter fun n => n.natAbs < tenTo 15
  | _ => none

/-- The normal form of a version (`normalize_version`). -/
def normalize (s : String) : String :=
  let trimmed := Text.trim s
  match wholeNumber? trimmed with
  | some n => toString n
  | none => trimmed

/-- The version that a JSON value denotes (`version_string`); only texts and numbers do. -/
def ofJson? : Json → Option String
  | .str s => some (normalize s)
  | .num n => some (normalize (String.ofList n.text))
  | _ => none

/-- The order of two versions (`compare_versions`): numeric where both read as doubles, by code
point otherwise. The undefined double counts as equal to every other. -/
def order (a b : String) : Ordering :=
  match Double.parse? a, Double.parse? b with
  | some x, some y => (Double.compare? x y).getD .eq
  | _, _ => compare a b

end Lineage.Version
