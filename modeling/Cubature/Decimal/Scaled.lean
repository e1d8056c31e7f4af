/-!
# Reading a decimal in floating point

A decimal `significand * 10 ^ exponent` is read by rounding the significand and then multiplying or
dividing it by a power of ten. Each step rounds, so the result can be a neighbour of the nearest
floating-point number.
-/

namespace Cubature.Decimal

/-- The floating-point number nearest to `10 ^ k`, for `k ≤ 308`. -/
def powerOfTen (k : Nat) : Float := Float.ofScientific 1 false k

/-- The greatest exponent of a power of ten in the floating-point range. -/
def greatestPower : Nat := 308

/-- `f * 10 ^ exponent`, in steps of at most `10 ^ 308`. There is no answer above the
floating-point range; below it the answer is zero. -/
def scaleSteps (f : Float) (exponent : Int) : Nat → Option Float
  | 0 => some f
  | steps + 1 =>
    if exponent.natAbs ≤ greatestPower then
      if exponent < 0 then some (f / powerOfTen exponent.natAbs)
      else
        let scaled := f * powerOfTen exponent.natAbs
        if scaled.isInf then none else some scaled
    else if f == 0.0 then some f
    else if exponent < 0 then
      scaleSteps (f / powerOfTen greatestPower) (exponent + greatestPower) steps
    else none

/-- The number `significand * 10 ^ exponent`, read in floating point. -/
def scale (significand : Nat) (exponent : Int) : Option Float :=
  scaleSteps (Float.ofNat significand) exponent (exponent.natAbs / greatestPower + 1)

end Cubature.Decimal
