import Mathlib.Algebra.Order.Field.Basic
import Cubature.Scalar

/-!
# Exact arithmetic

A linearly ordered field as numbers a rule is computed with. Every formula of the library can then
be read without rounding.

* `Scalar.Exact.instField`: the operations and the tests are those of the field.
* `Scalar.power_eq_pow`, `Scalar.powerInt_natCast`: powers by squaring are powers.
* `Scalar.sum_eq_sum`: a sum from the left is a sum.
-/

namespace Cubature.Scalar

variable {K : Type} [Field K] [LinearOrder K]

namespace Exact

/-- A linearly ordered field computes without rounding. -/
scoped instance instField : Scalar K where
  abs := fun x => max x (-x)
  lt := fun x y => decide (x < y)
  le := fun x y => decide (x ≤ y)
  isZero := fun x => decide (x = 0)

/-- The numeral of the scalar is the one of the field. From two on this holds by definition. -/
@[simp] theorem ofNat_one : @OfNat.ofNat K 1 Scalar.instOfNat = 1 := Nat.cast_one

theorem ofNat_zero : @OfNat.ofNat K 0 Scalar.instOfNat = 0 := Nat.cast_zero

end Exact

open scoped Exact

theorem power_eq_pow (b : K) (n : Nat) : power b n = b ^ n := by
  induction n using Nat.strongRecOn with
  | ind n ih =>
    unfold power
    split
    · rename_i hn
      subst hn
      exact (Nat.cast_one.trans (pow_zero b).symm)
    · rename_i hn
      rw [ih (n / 2) (by omega)]
      have hsplit := Nat.div_add_mod n 2
      split
      · rename_i heven
        rw [← pow_add]
        congr 1
        omega
      · rename_i hodd
        show b ^ (n / 2) * b ^ (n / 2) * b = b ^ n
        rw [← pow_add, ← pow_succ]
        congr 1
        omega

/-- A power to a natural exponent, as it is computed from an integer one. -/
theorem powerInt_natCast (b : K) (n : Nat) : powerInt b n = b ^ n := by
  unfold powerInt
  rw [if_neg (by omega), Int.natAbs_natCast, power_eq_pow]

/-- Negative zero is zero, and the order of the terms does not matter. -/
theorem sum_eq_sum (xs : List K) : sum xs = xs.sum := by
  have hzero : (-(@OfNat.ofNat K 0 Scalar.instOfNat) : K) = 0 := by
    rw [Exact.ofNat_zero]
    exact neg_zero
  rw [sum, hzero, List.sum_eq_foldl]

end Cubature.Scalar
