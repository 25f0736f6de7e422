/-!
# TOML values

Only what a configuration is read from: the value of a number beyond its kind is not kept where no
reader needs it.
-/

namespace Lineage

inductive Toml where
  | string (s : String)
  | integer (n : Int)
  | real
  | boolean (b : Bool)
  | datetime
  | array (items : List Toml)
  | table (entries : List (String × Toml))
deriving Repr, Inhabited

namespace Toml

/-! ## Reading typed values -/

def text : Toml → Option String
  | .string s => some s
  | _ => none

def flag : Toml → Option Bool
  | .boolean b => some b
  | _ => none

def isEmptyContainer : Toml → Bool
  | .array [] | .table [] => true
  | _ => false

/-- One of several names, alone or as the only key of a table, with an empty value. -/
def choice (ofName? : String → Option α) : Toml → Option α
  | .string s => ofName? s
  | .table [(name, value)] => if value.isEmptyContainer then ofName? name else none
  | _ => none

/-- An entry that may be missing. -/
def optional (name : String) (read : Toml → Option α) (entries : List (String × Toml)) :
    Option (Option α) :=
  match entries.lookup name with
  | none => some none
  | some value => (read value).map some

/-- An entry that may be missing. -/
def defaulted (name : String) (read : Toml → Option α) (fallback : α)
    (entries : List (String × Toml)) : Option α :=
  match entries.lookup name with
  | none => some fallback
  | some value => read value

/-- An item that may be missing at the end of an array. -/
def itemOr (read : Toml → Option α) (fallback : α) : Option Toml → Option α
  | none => some fallback
  | some value => read value

end Toml

end Lineage
