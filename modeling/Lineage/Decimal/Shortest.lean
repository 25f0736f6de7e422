import Lineage.Decimal.Double

/-!
# The shortest decimal that reads back

Of the decimals that read back as a given double, the one with the fewest digits, and of those the
one nearest to the double; of two equally near ones, the one whose last digit is even.
-/

namespace Lineage.FiniteDouble

/-- Where the leading digit of a magnitude stands: `10 ^ (place - 1) ≤ magnitude < 10 ^ place`.
The magnitude is given in units and is not zero; scaled by `10 ^ 400` it is at least one. -/
def leadingPlace (units : Nat) : Int :=
  (Decimal.digitsOf (units * tenTo 400 / unitsOfOne)).length - 400

/-- A magnitude divided by a power of ten, as a fraction. -/
def scaled (units : Nat) (exponent : Int) : Nat × Nat :=
  if 0 ≤ exponent then (units, unitsOfOne * tenTo exponent.toNat)
  else (units * tenTo (-exponent).toNat, unitsOfOne)

/-- Whether a decimal reads back as this double. -/
def readsAs (x : FiniteDouble) (d : Decimal) : Bool := ofDecimal? d == some x

/-- The nearest decimal of this exponent that reads back, of the two next to the double. -/
def onGrid? (x : FiniteDouble) (exponent : Int) : Option Decimal :=
  let (num, den) := scaled x.units exponent
  let below : Decimal := ⟨x.negative, num / den, exponent⟩
  let above : Decimal := ⟨x.negative, num / den + 1, exponent⟩
  let order :=
    if roundDiv num den = num / den then [below, above] else [above, below]
  order.find? x.readsAs

/-- The same number with the zeros at the end of its coefficient moved to the exponent. The
coefficient must not be zero itself. -/
def withoutTrailingZeros (d : Decimal) : Decimal :=
  let zeros := ((Decimal.digitsOf d.coefficient).reverse.takeWhile (· == '0')).length
  ⟨d.negative, d.coefficient / tenTo zeros, d.exponent + zeros⟩

/-- The double as a decimal without any rounding. -/
def exact (x : FiniteDouble) : Decimal := ⟨x.negative, x.units * (tenTo 1074 / unitsOfOne), -1074⟩

/-- The shortest decimal that reads back as this double. Seventeen digits are always enough. -/
def shortest (x : FiniteDouble) : Decimal :=
  if x.units = 0 then ⟨x.negative, 0, 0⟩
  else
    let place := leadingPlace x.units
    let found := (List.range 17).findSome? fun (k : Nat) => x.onGrid? (place - (k + 1))
    withoutTrailingZeros (found.getD x.exact)

end Lineage.FiniteDouble
