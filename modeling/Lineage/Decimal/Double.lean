import Lineage.Decimal.Basic

/-!
# Binary floating point numbers of 64 bits

A finite double is a sign and a rank: its magnitude's place in the ascending list of all
magnitudes, which is also its bit pattern without the sign bit. Every magnitude is a whole number
of units of `2 ^ -1074`, so doubles are compared, read and printed in exact arithmetic on natural
numbers. Reading rounds to the nearest double, and to the even one of two that are equally near.
-/

namespace Lineage

/-- How many magnitudes there are: the finite bit patterns without a sign. -/
def magnitudeCount : Nat := 2047 * twoTo 52

/-- A double that is neither infinite nor undefined. -/
structure FiniteDouble where
  negative : Bool
  rank : Fin magnitudeCount
deriving DecidableEq, Repr

/-- Any double. -/
inductive Double where
  | finite (x : FiniteDouble)
  | infinite (negative : Bool)
  /-- The result of an undefined operation; it is neither less than, equal to nor greater than any
  double. -/
  | undefined
deriving DecidableEq, Repr

namespace FiniteDouble

/-- The number one, in units of `2 ^ -1074`. -/
def unitsOfOne : Nat := twoTo 1074

/-- How often the spacing of doubles has doubled at this rank. -/
def doublings (rank : Nat) : Nat := rank / twoTo 52 - 1

/-- The magnitude at a rank, in units of `2 ^ -1074`. -/
def unitsAt (rank : Nat) : Nat :=
  (rank - doublings rank * twoTo 52) * twoTo (doublings rank)

/-- The magnitude, in units of `2 ^ -1074`. -/
def units (x : FiniteDouble) : Nat := unitsAt x.rank

/-- The quotient rounded to the nearest whole number, a half to the even one. -/
def roundDiv (num den : Nat) : Nat :=
  let q := num / den
  let r := num % den
  if 2 * r < den then q
  else if den < 2 * r then q + 1
  else if q % 2 = 0 then q else q + 1

/-- The number of binary digits; zero has none. -/
def bitLength (n : Nat) : Nat := if n = 0 then 0 else n.log2 + 1

/-- The rank nearest to `num / den` units. It may lie beyond the last finite one. -/
def rankOf (num den : Nat) : Nat :=
  let doublings := bitLength (num / den) - 53
  doublings * twoTo 52 + roundDiv num (den * twoTo doublings)

/-- The double nearest to `± num / den`; none if that is beyond the finite ones. -/
def ofRatio? (negative : Bool) (num den : Nat) : Option FiniteDouble :=
  let rank := rankOf (num * unitsOfOne) den
  if h : rank < magnitudeCount then some ⟨negative, rank, h⟩ else none

def zero (negative : Bool) : FiniteDouble := ⟨negative, 0, by decide⟩

/-- The double nearest to a decimal; none if that is beyond the finite ones. A decimal with a
leading digit far outside the range of doubles is decided by the place of that digit. -/
def ofDecimal? (d : Decimal) : Option FiniteDouble :=
  if d.coefficient = 0 then some (zero d.negative)
  else
    let place : Int := (Decimal.digitsOf d.coefficient).length + d.exponent
    if place > 400 then none
    else if place < -400 then some (zero d.negative)
    else if 0 ≤ d.exponent then ofRatio? d.negative (d.coefficient * tenTo d.exponent.toNat) 1
    else ofRatio? d.negative d.coefficient (tenTo (-d.exponent).toNat)

/-- The number as a whole number, if it is one. Both zeros are. -/
def toInt? (x : FiniteDouble) : Option Int :=
  if x.units % unitsOfOne = 0 then
    let n := Int.ofNat (x.units / unitsOfOne)
    some (if x.negative then -n else n)
  else none

/-- The number in units of `2 ^ -1074`, with its sign. -/
def signedUnits (x : FiniteDouble) : Int := if x.negative then -x.units else x.units

end FiniteDouble

namespace Double

/-- The double nearest to a decimal; the infinite ones lie beyond the last finite ones. -/
def ofDecimal (d : Decimal) : Double :=
  match FiniteDouble.ofDecimal? d with
  | some x => .finite x
  | none => .infinite d.negative

/-- How two doubles compare; an undefined one compares with none. -/
def compare? : Double → Double → Option Ordering
  | .undefined, _ => none
  | _, .undefined => none
  | .finite x, .finite y => some (compare x.signedUnits y.signedUnits)
  | .infinite n, .infinite m => some (compare m n)
  | .infinite n, .finite _ => some (if n then .lt else .gt)
  | .finite _, .infinite n => some (if n then .gt else .lt)

/-- Reads a decimal without a sign: digits with at most one point among, before or after them, and
an optional exponent. -/
def unsignedDecimal? (negative : Bool) (cs : List Char) : Option Decimal :=
  let (whole, rest) := Decimal.spanDigits cs
  let (fraction, rest) := match rest with
    | '.' :: rest => Decimal.spanDigits rest
    | rest => ([], rest)
  if whole.isEmpty && fraction.isEmpty then none
  else match Decimal.exponentPart? rest with
    | some (exponent, []) => some (Decimal.ofParts negative whole fraction exponent)
    | _ => none

/-- Reads a double: a decimal, `inf`, `infinity` or `nan` in any case of letters, after an optional
sign. Nothing may stand around it. -/
def parse? (s : String) : Option Double :=
  let (negative, cs) := match s.toList with
    | '+' :: cs => (false, cs)
    | '-' :: cs => (true, cs)
    | cs => (false, cs)
  let word := String.ofList (cs.map Char.toLower)
  if word = "inf" ∨ word = "infinity" then some (.infinite negative)
  else if word = "nan" then some .undefined
  else (unsignedDecimal? negative cs).map ofDecimal

end Double

end Lineage
