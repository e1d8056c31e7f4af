/-!
# Numbers a rule is computed with

`Scalar α` collects the arithmetic that points and weights need: the four operations, the numbers
`0, 1, 2, …`, and the tests that steer a root search. `Float` is the working instance. Every
formula of the library is written over a `Scalar`, so it can be read over an exact field as well.

* `Scalar.power`, `Scalar.powerInt`: powers by repeated squaring, exact on powers of two.
* `Scalar.sum`: a sum from the left that starts from negative zero.
-/

namespace Cubature

/-- The arithmetic and the tests that points and weights are computed with. -/
class Scalar (α : Type) where
  [toAdd : Add α]
  [toSub : Sub α]
  [toMul : Mul α]
  [toDiv : Div α]
  [toNeg : Neg α]
  [toNatCast : NatCast α]
  /-- The magnitude of a number. -/
  abs : α → α
  /-- Whether the first number is less than the second. -/
  lt : α → α → Bool
  /-- Whether the first number is at most the second. -/
  le : α → α → Bool
  /-- Whether a number is zero, of either sign. -/
  isZero : α → Bool

namespace Scalar

variable {α : Type} [Scalar α]

-- Of low priority, so that a type with an arithmetic of its own, such as a field, keeps it: what is
-- written over the type and what is written over a `Scalar` are then the same.
instance (priority := low) instAdd : Add α := toAdd

instance (priority := low) instSub : Sub α := toSub

instance (priority := low) instMul : Mul α := toMul

instance (priority := low) instDiv : Div α := toDiv

instance (priority := low) instNeg : Neg α := toNeg

instance (priority := low) instNatCast : NatCast α := toNatCast

/-- A numeral stands for the scalar of that count. -/
scoped instance (priority := low) instOfNat {n : Nat} : OfNat α n := ⟨(n : α)⟩

/-- Binary floating point with 53 significant bits. -/
instance instFloat : Scalar Float where
  toNatCast := ⟨Float.ofNat⟩
  abs := Float.abs
  lt := Float.lt
  le := Float.le
  isZero x := x == 0.0

/-- `b` to a natural power, by squaring. Every intermediate product is itself a power of `b`. -/
@[specialize]
def power (b : α) (n : Nat) : α :=
  if n = 0 then 1
  else
    let root := power b (n / 2)
    if n % 2 = 0 then root * root else root * root * b
termination_by n

/-- `b` to an integer power; a negative power is the reciprocal of the positive one. -/
@[specialize]
def powerInt (b : α) (k : Int) : α :=
  if k < 0 then 1 / power b k.natAbs else power b k.natAbs

/-- The spacing of the floating-point numbers above one, `2 ^ -52`. -/
def epsilon : α := 1 / 4503599627370496

/-- The sum of a list from the left. It starts from negative zero, the one start that leaves a
single term's sign of zero alone. -/
@[specialize]
def sum (xs : List α) : α := xs.foldl (· + ·) (-0)

end Scalar

end Cubature
