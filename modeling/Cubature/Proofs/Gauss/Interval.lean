import Cubature.Proofs.Gauss.Orthogonal
import Mathlib.Analysis.SpecialFunctions.Integrals.Basic

/-!
# Integrals of polynomials over `[-1, 1]`

`interval K` is the integral over `[-1, 1]` as a linear form on the polynomials over any exact
field `K`. Over the reals it is the integral (`interval_eq_integral`), and a field inside the reals
has the same integrals of powers (`map_interval_X_pow`).

* `interval_derivative`: the fundamental theorem, from which all else follows.
* `interval_beta`: the integral of `(1 - x) ^ i (1 + x) ^ j`, by parts.
-/

namespace Cubature.Gauss

open Polynomial
open scoped Nat

/-- The integral over `[-1, 1]` of a polynomial: of `x ^ m` it is
`(1 ^ (m + 1) - (-1) ^ (m + 1)) / (m + 1)`. -/
noncomputable def interval (K : Type) [Field K] : K[X] →ₗ[K] K :=
  lsum fun m => ((1 - (-1) ^ (m + 1)) / (m + 1) : K) • LinearMap.id

variable {K : Type} [Field K]

theorem interval_monomial (m : ℕ) (c : K) :
    interval K (monomial m c) = (1 - (-1) ^ (m + 1)) / (m + 1) * c := by
  simp [interval, lsum_apply, sum_monomial_index]

theorem interval_X_pow (m : ℕ) : interval K (X ^ m) = (1 - (-1) ^ (m + 1)) / (m + 1) := by
  rw [← monomial_one_right_eq_X_pow, interval_monomial, mul_one]

theorem interval_C_mul (c : K) (p : K[X]) : interval K (C c * p) = c * interval K p := by
  rw [← smul_eq_C_mul, map_smul, smul_eq_mul]

/-- Over the reals it is the integral. -/
theorem interval_eq_integral (p : ℝ[X]) : interval ℝ p = ∫ x in (-1 : ℝ)..1, p.eval x := by
  have heq : interval ℝ = weighted 0 := by
    refine lhom_ext' fun m => LinearMap.ext_ring ?_
    simp [interval_monomial, weighted]
  rw [heq]
  simp [weighted]

/-- Over the reals the integral with a weight is the integral with the weight as a factor. -/
theorem weighted_eq_interval (a : ℕ) (p : ℝ[X]) :
    weighted a p = interval ℝ ((1 - X) ^ a * p) := by
  rw [interval_eq_integral]
  simp [weighted]

/-- A field inside the reals has the integrals of the reals. -/
theorem map_interval_X_pow (toReal : K →+* ℝ) (m : ℕ) :
    toReal (interval K (X ^ m)) = ∫ x in (-1 : ℝ)..1, x ^ m := by
  have h := interval_eq_integral (X ^ m)
  simp only [eval_pow, eval_X] at h
  rw [← h, interval_X_pow, interval_X_pow]
  simp

/-- Over the square, the product of the integrals of the factors. -/
theorem map_interval_square (toReal : K →+* ℝ) (a b : ℕ) :
    toReal (interval K (X ^ a) * interval K (X ^ b)) =
      ∫ x in (-1 : ℝ)..1, ∫ y in (-1 : ℝ)..1, x ^ a * y ^ b := by
  simp only [map_mul, map_interval_X_pow, intervalIntegral.integral_const_mul,
    intervalIntegral.integral_mul_const]

/-- Over the cube, the product of the integrals of the factors. -/
theorem map_interval_cube (toReal : K →+* ℝ) (a b c : ℕ) :
    toReal (interval K (X ^ a) * interval K (X ^ b) * interval K (X ^ c)) =
      ∫ x in (-1 : ℝ)..1, ∫ y in (-1 : ℝ)..1, ∫ z in (-1 : ℝ)..1, x ^ a * y ^ b * z ^ c := by
  simp only [map_mul, map_interval_X_pow, intervalIntegral.integral_const_mul,
    intervalIntegral.integral_mul_const]

variable [CharZero K]

/-- The integral of a derivative, by the values at the ends. -/
theorem interval_derivative (p : K[X]) :
    interval K (derivative p) = p.eval 1 - p.eval (-1) := by
  have heq : interval K ∘ₗ derivative = leval 1 - leval (-1) := by
    refine lhom_ext' fun m => LinearMap.ext_ring ?_
    simp only [LinearMap.comp_apply, LinearMap.sub_apply, derivative_monomial, interval_monomial,
      leval_apply, eval_monomial]
    cases m with
    | zero => simp
    | succ m =>
      have : (m + 1 : K) ≠ 0 := Nat.cast_add_one_ne_zero m
      simp
      field_simp
  exact LinearMap.congr_fun heq p

theorem interval_one_sub_pow (i : ℕ) : interval K ((1 - X) ^ i) = 2 ^ (i + 1) / (i + 1) := by
  have hi : (i + 1 : K) ≠ 0 := Nat.cast_add_one_ne_zero i
  have h := interval_derivative (K := K) ((1 - X) ^ (i + 1))
  have hder : derivative ((1 - X : K[X]) ^ (i + 1)) = C (-(i + 1 : K)) * (1 - X) ^ i := by
    rw [derivative_pow_succ]
    simp
    ring
  rw [hder, interval_C_mul] at h
  norm_num at h
  rw [eq_div_iff hi]
  linear_combination -h

/-- The integral of `(1 - x) ^ i (1 + x) ^ j`. By parts, one factor `1 + x` is exchanged for a
factor `1 - x`. -/
theorem interval_beta (i j : ℕ) :
    interval K ((1 - X) ^ i * (1 + X) ^ j) * (i + j + 1)! = 2 ^ (i + j + 1) * (i ! * j !) := by
  induction j generalizing i with
  | zero =>
    have hi : (i + 1 : K) ≠ 0 := Nat.cast_add_one_ne_zero i
    rw [pow_zero, mul_one, interval_one_sub_pow, Nat.add_zero, Nat.factorial_succ]
    push_cast
    field_simp
    simp
  | succ j ih =>
    have hi : (i + 1 : K) ≠ 0 := Nat.cast_add_one_ne_zero i
    have h := interval_derivative (K := K) ((1 - X) ^ (i + 1) * (1 + X) ^ (j + 1))
    have hder : derivative ((1 - X : K[X]) ^ (i + 1) * (1 + X) ^ (j + 1)) =
        C (j + 1 : K) * ((1 - X) ^ (i + 1) * (1 + X) ^ j) -
          C (i + 1 : K) * ((1 - X) ^ i * (1 + X) ^ (j + 1)) := by
      rw [derivative_mul, derivative_pow_succ, derivative_pow_succ]
      simp
      ring
    rw [hder, map_sub, interval_C_mul, interval_C_mul] at h
    norm_num at h
    have hstep := ih (i + 1)
    rw [show i + 1 + j + 1 = i + (j + 1) + 1 by ring] at hstep
    apply mul_left_cancel₀ hi
    simp only [Nat.factorial_succ i, Nat.factorial_succ j] at hstep ⊢
    push_cast at hstep ⊢
    linear_combination (j + 1 : K) * hstep - ((i + (j + 1) + 1)! : K) * h

/-- The integral of `(1 - t) ^ i t ^ j` over `[0, 1]`, where `t` is half of `1 + x`. -/
theorem half_pow_mul_interval (i j : ℕ) :
    (1 / 2) ^ (i + j + 1) * interval K ((1 - X) ^ i * (1 + X) ^ j) =
      i ! * j ! / (i + j + 1)! := by
  have hfact : ((i + j + 1)! : K) ≠ 0 := by exact_mod_cast Nat.factorial_ne_zero _
  rw [eq_div_iff hfact, mul_assoc, interval_beta, ← mul_assoc, ← mul_pow]
  norm_num

end Cubature.Gauss
