import Lineage.Decimal.Shortest
import Lineage.Json.Basic

/-!
# Printing JSON

One printer serves two layouts: on several lines, two blanks deeper at each level, and on one line
without any blanks. An empty array or object is written without a break in both.
-/

namespace Lineage.Json

/-! ## Texts -/

/-- The digit of a number below sixteen, in lower case. -/
def hexDigit (n : Nat) : Char := Nat.digitChar n

/-- How one character stands inside quotes: quotes, backslashes and control characters are
escaped, everything else stands for itself. -/
def escape (c : Char) : List Char :=
  if c = '"' then ['\\', '"']
  else if c = '\\' then ['\\', '\\']
  else if c = '\n' then ['\\', 'n']
  else if c = '\r' then ['\\', 'r']
  else if c = '\t' then ['\\', 't']
  else if c.toNat = 0x8 then ['\\', 'b']
  else if c.toNat = 0xc then ['\\', 'f']
  else if c.toNat < 0x20 then
    ['\\', 'u', '0', '0', hexDigit (c.toNat / 16), hexDigit (c.toNat % 16)]
  else [c]

def quote (s : String) : List Char := '"' :: s.toList.flatMap escape ++ ['"']

/-! ## Numbers -/

/-- A double by the digits of the shortest decimal that it is nearest to. With the value written
`d.ddd · 10 ^ place` it is positional for places from -5 to 15, with at least one digit after the
point, and otherwise has a signed exponent. -/
def realText (x : FiniteDouble) : List Char :=
  let d := x.shortest
  let digits := Decimal.digitsOf d.coefficient
  let place : Int := digits.length - 1 + d.exponent
  let sign := if d.negative then ['-'] else []
  let body :=
    if d.coefficient = 0 then ['0', '.', '0']
    else if 0 ≤ place ∧ place ≤ 15 then
      let whole := place.toNat + 1
      if 0 ≤ d.exponent then digits ++ List.replicate d.exponent.toNat '0' ++ ['.', '0']
      else digits.take whole ++ '.' :: digits.drop whole
    else if -5 ≤ place ∧ place < 0 then
      '0' :: '.' :: List.replicate (-place - 1).toNat '0' ++ digits
    else
      let mantissa := match digits with
        | d :: e :: rest => d :: '.' :: e :: rest
        | single => single
      mantissa ++ 'e' :: (if place < 0 then '-' else '+') :: Decimal.digitsOf place.natAbs
  sign ++ body

def Number.text : Number → List Char
  | .whole n => if n < 0 then '-' :: Decimal.digitsOf n.natAbs else Decimal.digitsOf n.natAbs
  | .real x => realText x

/-! ## Values -/

/-- What a printer puts between the parts of an array or object. -/
structure Layout where
  /-- Stands before each part, given how deep it is, and before the closing bracket. -/
  lineBreak : Nat → List Char
  /-- Stands between a name and its value. -/
  colon : List Char

/-- One part to a line. -/
def Layout.pretty : Layout := ⟨fun depth => '\n' :: List.replicate (2 * depth) ' ', [':', ' ']⟩

/-- Everything on one line. -/
def Layout.compact : Layout := ⟨fun _ => [], [':']⟩

mutual

/-- The text of a value that stands `depth` levels deep. -/
def render (layout : Layout) (depth : Nat) : Json → List Char
  | .null => ['n', 'u', 'l', 'l']
  | .bool true => ['t', 'r', 'u', 'e']
  | .bool false => ['f', 'a', 'l', 's', 'e']
  | .num n => n.text
  | .str s => quote s
  | .arr [] => ['[', ']']
  | .arr (item :: items) =>
    '[' :: layout.lineBreak (depth + 1) ++ item.render layout (depth + 1)
      ++ renderItems layout (depth + 1) items ++ layout.lineBreak depth ++ [']']
  | .obj [] => ['{', '}']
  | .obj ((name, value) :: fields) =>
    '{' :: layout.lineBreak (depth + 1) ++ quote name ++ layout.colon
      ++ value.render layout (depth + 1) ++ renderFields layout (depth + 1) fields
      ++ layout.lineBreak depth ++ ['}']

/-- The items after the first, each behind a comma. -/
def renderItems (layout : Layout) (depth : Nat) : List Json → List Char
  | [] => []
  | item :: items =>
    ',' :: layout.lineBreak depth ++ item.render layout depth ++ renderItems layout depth items

/-- The fields after the first, each behind a comma. -/
def renderFields (layout : Layout) (depth : Nat) : List (String × Json) → List Char
  | [] => []
  | (name, value) :: fields =>
    ',' :: layout.lineBreak depth ++ quote name ++ layout.colon ++ value.render layout depth
      ++ renderFields layout depth fields

end

/-- The text of a value on several lines. -/
def pretty (value : Json) : String := String.ofList (value.render .pretty 0)

/-- The text of a value on one line. -/
def compact (value : Json) : String := String.ofList (value.render .compact 0)

end Lineage.Json
