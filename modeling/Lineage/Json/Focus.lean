import Lineage.Json.Basic

/-!
# Focus

Which parts of a JSON text a reader keeps. A part that is not kept only has to be well-formed: it
may nest as deep, hold numbers as large and halves of surrogate pairs as it likes.
-/

namespace Lineage

/-- What is kept of a value. -/
inductive Json.Focus where
  | whole
  | nothing
  /-- The same of each item of an array, or of each field of an object. -/
  | each (focus : Json.Focus)
  /-- Of each field what stands beside its name, and `others` of any other. A record may also be an
  array with its fields by position. -/
  | record (fields : List (String × Json.Focus)) (others : Json.Focus)
deriving Inhabited

namespace Json.Focus

/-- What is kept of a field. -/
def field (name : String) : Focus → Focus
  | .whole => .whole
  | .nothing => .nothing
  | .each focus => focus
  | .record fields others => (fields.lookup name).getD others

/-- What is kept of the item at a place of an array. -/
def item (place : Nat) : Focus → Focus
  | .whole => .whole
  | .nothing => .nothing
  | .each focus => focus
  | .record fields _ => (fields[place]?.map (·.2)).getD .whole

/-- A field, if anything of it is kept. -/
def keep (focus : Focus) (name : String) (value : Json) : List (String × Json) :=
  match focus.field name with
  | .nothing => []
  | _ => [(name, value)]

/-- Keeps the fields of these names, and no others. -/
def only (names : List String) : Focus := .record (names.map (·, .whole)) .nothing

end Json.Focus

end Lineage
