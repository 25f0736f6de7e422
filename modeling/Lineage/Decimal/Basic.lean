/-!
# Decimal numbers

A decimal is a coefficient times a power of ten, with a sign that zero has too. This module holds
the type and what readers of number texts share: runs of digits and their value.
-/

namespace Lineage

/-- A power of two. -/
def twoTo (n : Nat) : Nat := Nat.pow 2 n

/-- A power of ten. -/
def tenTo (n : Nat) : Nat := Nat.pow 10 n

/-- The number `± coefficient · 10 ^ exponent`. -/
structure Decimal where
  negative : Bool
  coefficient : Nat
  exponent : Int
deriving DecidableEq, Repr

namespace Decimal

/-- The value of a decimal digit; only used on digits. -/
def digitValue (c : Char) : Nat := c.toNat - '0'.toNat

/-- The number that a run of digits denotes. -/
def ofDigits (digits : List Char) : Nat :=
  digits.foldl (fun n c => 10 * n + digitValue c) 0

/-- The digits of a number, most significant first; zero has one. -/
def digitsOf (n : Nat) : List Char := Nat.toDigits 10 n

/-- Splits off the longest run of decimal digits at the front. -/
def spanDigits (cs : List Char) : List Char × List Char := cs.span Char.isDigit

/-- The decimal with these digits before and after the point, scaled by a power of ten. -/
def ofParts (negative : Bool) (whole fraction : List Char) (exponent : Int) : Decimal where
  negative := negative
  coefficient := ofDigits (whole ++ fraction)
  exponent := exponent - fraction.length

/-- Whether a text starts with an exponent mark. -/
def startsExponent : List Char → Bool
  | c :: _ => c == 'e' || c == 'E'
  | [] => false

/-- Reads an optional exponent mark with a signed run of digits. Without a mark the exponent is
zero; a mark needs at least one digit. -/
def exponentPart? : List Char → Option (Int × List Char)
  | c :: cs =>
    if startsExponent (c :: cs) then
      let (negative, cs) := match cs with
        | '+' :: cs => (false, cs)
        | '-' :: cs => (true, cs)
        | cs => (false, cs)
      let (digits, rest) := spanDigits cs
      if digits.isEmpty then none
      else
        let n : Int := ofDigits digits
        some (if negative then -n else n, rest)
    else some (0, c :: cs)
  | [] => some (0, [])

end Decimal

end Lineage
