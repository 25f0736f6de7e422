import Lineage.Json.Printer

/-!
# Printing TOML keys and texts
-/

namespace Lineage.Toml

/-- How one character stands between double quotes. -/
def escapeChar (c : Char) : List Char :=
  if c = '"' then ['\\', '"']
  else if c = '\\' then ['\\', '\\']
  else if c.toNat < 0x20 ∨ c.toNat = 0x7f then
    ['\\', 'u', '0', '0', Json.hexDigit (c.toNat / 16), Json.hexDigit (c.toNat % 16)]
  else [c]

/-- A text between double quotes, on one line. -/
def quoted (s : String) : String :=
  "\"" ++ String.ofList (s.toList.flatMap escapeChar) ++ "\""

/-- A pair on a line of its own; both sides are written already. -/
def pairLine (key value : String) : String := key ++ " = " ++ value ++ "\n"

/-- A header on a line of its own, behind an empty line. -/
def headerLine (key : String) : String := "\n[" ++ key ++ "]\n"

def flagText (b : Bool) : String := if b then "true" else "false"

/-- A pair for a text that is there, nothing for one that is not. -/
def optionalPair (key : String) : Option String → String
  | none => ""
  | some s => pairLine key (quoted s)

end Lineage.Toml
