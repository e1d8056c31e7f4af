/-!
# The parts of a binary floating-point number

A `Float` has a sign and is nothing, infinite, zero, or a whole number of units `2 ^ exponent`.
-/

namespace Cubature.Decimal

/-- What a floating-point number is, its sign apart. -/
inductive Magnitude where
  | nan
  | infinite
  | zero
  | finite (mantissa : Nat) (exponent : Int)
  deriving DecidableEq, Repr

/-- The number of fraction fields: 52 bits. -/
def fractionCount : Nat := Nat.pow 2 52

/-- The number of exponent fields: 11 bits. -/
def exponentCount : Nat := Nat.pow 2 11

/-- The sign bit stands above the exponent field. -/
def signUnit : Nat := exponentCount * fractionCount

/-- Whether the sign bit is set. -/
def isNegative (x : Float) : Bool := signUnit ≤ x.toBits.toNat

/-- The magnitude with the given exponent field and fraction field. -/
def Magnitude.ofFields (exponent fraction : Nat) : Magnitude :=
  if exponent + 1 = exponentCount then if fraction = 0 then .infinite else .nan
  else if exponent = 0 then if fraction = 0 then .zero else .finite fraction (-1074)
  else .finite (fractionCount + fraction) ((exponent : Int) - 1075)

/-- The magnitude of a floating-point number. -/
def magnitude (x : Float) : Magnitude :=
  let bits := x.toBits.toNat
  .ofFields (bits / fractionCount % exponentCount) (bits % fractionCount)

end Cubature.Decimal
