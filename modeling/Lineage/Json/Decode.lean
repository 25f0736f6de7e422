import Lineage.Json.Basic

/-!
# Reading typed values out of JSON

Each reader answers with the typed value or refuses. An object that is read field by field may
repeat a name only where the reader does not know that name.
-/

namespace Lineage.Json

/-! ## Single values -/

def text : Json → Option String
  | .str s => some s
  | _ => none

def flag : Json → Option Bool
  | .bool b => some b
  | _ => none

/-- A whole number below `limit` without a sign. -/
def natBelow (limit : Nat) : Json → Option Nat
  | .num (.whole n) => if 0 ≤ n ∧ n < limit then some n.toNat else none
  | _ => none

/-- One of several names, alone or as the only field of an object, with null for its value. -/
def choice (ofName? : String → Option α) : Json → Option α
  | .str s => ofName? s
  | .obj [(name, .null)] => ofName? name
  | _ => none

/-- Null, or what the reader accepts. -/
def orNull (read : Json → Option α) : Json → Option (Option α)
  | .null => some none
  | value => (read value).map some

/-- The value itself. -/
def any (value : Json) : Option Json := some value.normalize

def listOf (read : Json → Option α) : Json → Option (List α)
  | .arr items => items.mapM read
  | _ => none

/-- An object as a map; of several fields with one name, the last. Each of them has to be read. -/
def mapOf (read : Json → Option α) : Json → Option (Std.ExtTreeMap String α compare)
  | .obj fields =>
    (fields.mapM fun field => (read field.2).map (field.1, ·)).map
      fun entries => Std.ExtTreeMap.ofList entries compare
  | _ => none

/-! ## Fields -/

/-- Whether no known name stands twice among the fields. -/
def distinct (known : List String) (fields : List (String × Json)) : Bool :=
  known.all fun name => (fields.filter (·.1 == name)).length ≤ 1

/-- A field that has to be there. -/
def required (name : String) (read : Json → Option α) (fields : List (String × Json)) :
    Option α :=
  (fields.lookup name).bind read

/-- A field that may be missing or null. -/
def optional (name : String) (read : Json → Option α) (fields : List (String × Json)) :
    Option (Option α) :=
  match fields.lookup name with
  | none => some none
  | some value => orNull read value

/-- A field that may be missing, but not null. -/
def defaulted (name : String) (read : Json → Option α) (fallback : α)
    (fields : List (String × Json)) : Option α :=
  match fields.lookup name with
  | none => some fallback
  | some value => read value

/-- The fields whose names are not known, by name. -/
def others (known : List String) (fields : List (String × Json)) : Fields :=
  Std.ExtTreeMap.ofList
    ((fields.filter fun field => !known.contains field.1).map
      fun (name, value) => (name, value.normalize)) compare

/-! ## Writing fields -/

/-- A field for a value that is there, none for one that is not. -/
def optionalField (name : String) (write : α → Json) : Option α → List (String × Json)
  | none => []
  | some value => [(name, write value)]

/-- A map as an object. -/
def ofMap (write : α → Json) (m : Std.ExtTreeMap String α compare) : Json :=
  .obj (m.toList.map fun (name, value) => (name, write value))

end Lineage.Json
