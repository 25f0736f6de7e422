import Lineage.Decimal.Double

/-!
# JSON numbers

A number that is written without point and exponent and fits 64 bits is kept exactly. Every other
one becomes a double in steps, each of which rounds: the leading digits, as far as they fit 64
bits, become a double, and that is multiplied or divided by the double next to a power of ten. So
the result can differ in its last place from the double nearest to the text.
-/

namespace Lineage

/-- A number: whole ones that fit 64 bits, with or without a sign, are kept exactly, every other
one is a double. -/
inductive Json.Number where
  | whole (n : Int)
  | real (x : FiniteDouble)
deriving DecidableEq, Repr

namespace FiniteDouble

/-- The product, rounded; none if it is beyond the finite doubles. -/
def mul? (x y : FiniteDouble) : Option FiniteDouble :=
  ofRatio? (x.negative != y.negative) (x.units * y.units) (unitsOfOne * unitsOfOne)

/-- The quotient by a number that is not zero, rounded; none if it is beyond the finite doubles. -/
def div? (x y : FiniteDouble) : Option FiniteDouble :=
  ofRatio? (x.negative != y.negative) x.units y.units

/-- The double nearest to a power of ten; none beyond the finite ones. -/
def powerOfTen? (places : Nat) : Option FiniteDouble := ofDecimal? ⟨false, 1, places⟩

/-- The last power of ten that a double comes near to. -/
def maxPlaces : Nat := 308

/-- A number below `2 ^ 64` divided by a power of ten, in one step if a double comes near that
power, and otherwise in two; what two steps cannot do ends in zero. -/
def shiftRight? (x : FiniteDouble) (places : Nat) : Option FiniteDouble :=
  if places ≤ maxPlaces then (powerOfTen? places).bind x.div?
  else if places ≤ 2 * maxPlaces then do
    let y ← (powerOfTen? maxPlaces).bind x.div?
    (powerOfTen? (places - maxPlaces)).bind y.div?
  else some (zero x.negative)

/-- A number below `2 ^ 64` times a power of ten; none if the power or the product is beyond the
finite doubles. -/
def scale? (x : FiniteDouble) (exponent : Int) : Option FiniteDouble :=
  if x.units = 0 then some x
  else if 0 ≤ exponent then (powerOfTen? exponent.toNat).bind x.mul?
  else x.shiftRight? (-exponent).toNat

end FiniteDouble

namespace Json

/-! ## Numerals -/

/-- The parts of a written number. -/
structure Numeral where
  negative : Bool
  /-- The digits before the point. -/
  whole : List Char
  /-- The digits behind the point; none without a point. -/
  fraction : List Char := []
  /-- The exponent, if one is written. -/
  exponent : Option Int := none
deriving DecidableEq, Repr

/-- The leading digits of a numeral, and the power of ten that they are scaled by. -/
structure Leading where
  significand : Nat := 0
  exponent : Int := 0
deriving DecidableEq, Repr

namespace Leading

-- Irreducible, so that the recursions below unfold without evaluating the bound.
/-- Takes one more digit, if the significand still fits 64 bits with it. -/
@[irreducible] def push? (l : Leading) (c : Char) : Option Nat :=
  let n := 10 * l.significand + Decimal.digitValue c
  if n < twoTo 64 then some n else none

/-- Takes digits before the point. From the first that does not fit, each only counts a place. -/
def takeWhole (l : Leading) : List Char → Leading
  | [] => l
  | c :: cs =>
    match l.push? c with
    | some n => takeWhole { l with significand := n } cs
    | none => { l with exponent := l.exponent + (cs.length + 1) }

/-- Takes digits behind the point, up to the first that does not fit. -/
def takeFraction (l : Leading) : List Char → Leading
  | [] => l
  | c :: cs =>
    match l.push? c with
    | some n => takeFraction ⟨n, l.exponent - 1⟩ cs
    | none => l

end Leading

namespace Numeral

/-- Whether there is neither a point nor an exponent. -/
def isPlain (n : Numeral) : Bool := n.fraction.isEmpty && n.exponent.isNone

/-- The whole number before the point. -/
def toInt (n : Numeral) : Int :=
  let magnitude : Int := Decimal.ofDigits n.whole
  if n.negative then -magnitude else magnitude

def leading (n : Numeral) : Leading :=
  let l := (({} : Leading).takeWhole n.whole).takeFraction n.fraction
  { l with exponent := l.exponent + n.exponent.getD 0 }

/-- The double that a numeral denotes; none beyond the finite ones. -/
def toDouble? (n : Numeral) : Option FiniteDouble := do
  let x ← FiniteDouble.ofRatio? n.negative n.leading.significand 1
  x.scale? n.leading.exponent

end Numeral

/-- The whole numbers that fit 64 bits, with or without a sign. -/
def isWhole (n : Int) : Bool := -(twoTo 63 : Int) ≤ n && n < twoTo 64

/-- The number that a numeral denotes; none beyond the finite doubles. A plain numeral is whole
unless it is too long or denotes the negative zero. -/
def Number.ofNumeral? (n : Numeral) : Option Number :=
  if n.isPlain && isWhole n.toInt && !(n.negative && n.toInt == 0) then some (.whole n.toInt)
  else n.toDouble?.map .real

end Json

end Lineage
