import Mathlib.Algebra.Polynomial.Derivative
import Mathlib.Tactic
import Cubature.Gauss.Jacobi
import Cubature.Gauss.Legendre
import Cubature.Proofs.Scalar.Exact

/-!
# The polynomials of the recurrences

`jacobiPolynomial K a n` is the polynomial `P_n^(a,0)` that the three-term recurrence describes,
over an exact field.

* `jacobi_structure`: `(1 - x²) P'` in terms of two neighbours. The two relations carry each other
  from one degree to the next.
* `jacobi_ode`: the differential equation.
* `natDegree_jacobiPolynomial`, `topCoeff_succ`: the degree and the highest coefficient.
* `jacobiPair_eq_eval`, `jacobi_eq_eval`, `legendre_eq_eval`: the recurrences compute the value and
  the derivative of the polynomial.
-/

namespace Cubature.Gauss

open Polynomial

/-- The Jacobi polynomial `P_n^(a,0)`, by its three-term recurrence. -/
noncomputable def jacobiPolynomial (K : Type) [Field K] (a : ℕ) : ℕ → K[X]
  | 0 => 1
  | 1 => C (1 / 2) * (C (a + 2 : K) * X + C (a : K))
  | n + 2 =>
    C (1 / (2 * (n + 2) * (n + 2 + a) * (2 * n + 2 + a) : K)) *
      (C (2 * n + 3 + a : K) * (C ((2 * n + 4 + a) * (2 * n + 2 + a) : K) * X + C ((a : K) ^ 2)) *
          jacobiPolynomial K a (n + 1) -
        C (2 * (n + 1 + a) * (n + 1) * (2 * n + 4 + a) : K) * jacobiPolynomial K a n)

variable {K : Type} [Field K] [LinearOrder K] [IsStrictOrderedRing K] {a n : ℕ} {x : K}

/-- The recurrence without its denominator. -/
theorem jacobiPolynomial_rec (a n : ℕ) :
    C (2 * (n + 2) * (n + 2 + a) * (2 * n + 2 + a) : K) * jacobiPolynomial K a (n + 2) =
      C (2 * n + 3 + a : K) * (C ((2 * n + 4 + a) * (2 * n + 2 + a) : K) * X + C ((a : K) ^ 2)) *
          jacobiPolynomial K a (n + 1) -
        C (2 * (n + 1 + a) * (n + 1) * (2 * n + 4 + a) : K) * jacobiPolynomial K a n := by
  have hlead : (2 * (n + 2) * (n + 2 + a) * (2 * n + 2 + a) : K) ≠ 0 := by positivity
  rw [jacobiPolynomial, ← mul_assoc, ← C_mul, mul_one_div_cancel hlead, C_1, one_mul]

section Structure

variable (a n x)

theorem eval_rec :
    2 * (n + 2) * (n + 2 + a) * (2 * n + 2 + a) * (jacobiPolynomial K a (n + 2)).eval x =
      (2 * n + 3 + a) * ((2 * n + 4 + a) * (2 * n + 2 + a) * x + a ^ 2) *
          (jacobiPolynomial K a (n + 1)).eval x -
        2 * (n + 1 + a) * (n + 1) * (2 * n + 4 + a) * (jacobiPolynomial K a n).eval x := by
  have h := congrArg (eval x) (jacobiPolynomial_rec (K := K) a n)
  simpa only [eval_mul, eval_sub, eval_add, eval_C, eval_X] using h

theorem eval_derivative_rec :
    2 * (n + 2) * (n + 2 + a) * (2 * n + 2 + a) *
        (derivative (jacobiPolynomial K a (n + 2))).eval x =
      (2 * n + 3 + a) * ((2 * n + 4 + a) * (2 * n + 2 + a)) *
          (jacobiPolynomial K a (n + 1)).eval x +
        (2 * n + 3 + a) * ((2 * n + 4 + a) * (2 * n + 2 + a) * x + a ^ 2) *
          (derivative (jacobiPolynomial K a (n + 1))).eval x -
        2 * (n + 1 + a) * (n + 1) * (2 * n + 4 + a) *
          (derivative (jacobiPolynomial K a n)).eval x := by
  have h := congrArg (fun p => eval x (derivative p)) (jacobiPolynomial_rec (K := K) a n)
  simp only [derivative_mul, derivative_sub, derivative_add, derivative_C, derivative_X, eval_mul,
    eval_sub, eval_add, eval_C, eval_X, eval_zero, eval_one] at h
  linear_combination h

/-- The two relations between `(1 - x²) P'` and two neighbours, at the lower and at the upper
neighbour. -/
theorem jacobi_structure :
    (2 * n + 2 + a) * (1 - x ^ 2) * (derivative (jacobiPolynomial K a (n + 1))).eval x =
        (n + 1) * (a - (2 * n + 2 + a) * x) * (jacobiPolynomial K a (n + 1)).eval x +
          2 * (n + 1) * (n + 1 + a) * (jacobiPolynomial K a n).eval x ∧
      (2 * n + 2 + a) * (1 - x ^ 2) * (derivative (jacobiPolynomial K a n)).eval x =
        (n + 1 + a) * (a + (2 * n + 2 + a) * x) * (jacobiPolynomial K a n).eval x -
          2 * (n + 1) * (n + 1 + a) * (jacobiPolynomial K a (n + 1)).eval x := by
  induction n with
  | zero =>
    simp only [jacobiPolynomial, derivative_mul, derivative_add, derivative_C, derivative_X,
      derivative_one, eval_mul, eval_add, eval_C, eval_X, eval_zero, eval_one, Nat.cast_zero]
    constructor <;> ring
  | succ n ih =>
    obtain ⟨upper, lower⟩ := ih
    have hrec := eval_rec a n x
    have hdrec := eval_derivative_rec a n x
    push_cast
    have hc : (2 * n + 2 + a : K) ≠ 0 := by positivity
    have hlead : (2 * (n + 2) * (n + 2 + a) * (2 * n + 2 + a) : K) ≠ 0 := by positivity
    -- The lower relation is the upper one before, with the recurrence.
    have lower' : (2 * n + 4 + a) * (1 - x ^ 2) *
          (derivative (jacobiPolynomial K a (n + 1))).eval x =
        (n + 2 + a) * (a + (2 * n + 4 + a) * x) * (jacobiPolynomial K a (n + 1)).eval x -
          2 * (n + 2) * (n + 2 + a) * (jacobiPolynomial K a (n + 2)).eval x := by
      apply mul_left_cancel₀ hc
      linear_combination (2 * n + 4 + a : K) * upper + hrec
    constructor
    · apply mul_left_cancel₀ hlead
      apply mul_left_cancel₀ hc
      linear_combination (2 * n + 4 + a : K) * (2 * n + 2 + a) * (1 - x ^ 2) * hdrec +
        (2 * n + 2 + a : K) * (2 * n + 3 + a) * ((2 * n + 4 + a) * (2 * n + 2 + a) * x + a ^ 2) *
          lower' -
        2 * (n + 1 + a : K) * (n + 1) * (2 * n + 4 + a) ^ 2 * lower -
        (2 * n + 4 + a : K) * (n + 1 + a) * (a + (2 * n + 2 + a) * x) * hrec
    · linear_combination lower'

end Structure

/-- The relation at the upper neighbour, differentiated. -/
theorem eval_derivative_structure (a n : ℕ) (x : K) :
    (2 * n + 2 + a) * ((1 - x ^ 2) *
          (derivative (derivative (jacobiPolynomial K a (n + 1)))).eval x -
        2 * x * (derivative (jacobiPolynomial K a (n + 1))).eval x) =
      (n + 1) * (a - (2 * n + 2 + a) * x) *
          (derivative (jacobiPolynomial K a (n + 1))).eval x -
        (n + 1) * (2 * n + 2 + a) * (jacobiPolynomial K a (n + 1)).eval x +
        2 * (n + 1) * (n + 1 + a) * (derivative (jacobiPolynomial K a n)).eval x := by
  have hpoly : C (2 * n + 2 + a : K) * (1 - X ^ 2) * derivative (jacobiPolynomial K a (n + 1)) =
      C (n + 1 : K) * (C (a : K) - C (2 * n + 2 + a : K) * X) * jacobiPolynomial K a (n + 1) +
        C (2 * (n + 1) * (n + 1 + a) : K) * jacobiPolynomial K a n := by
    refine Polynomial.funext fun y => ?_
    simpa only [eval_mul, eval_sub, eval_add, eval_pow, eval_C, eval_X, eval_one] using
      (jacobi_structure a n y).1
  have h := congrArg (fun p => eval x (derivative p)) hpoly
  simp only [derivative_mul, derivative_sub, derivative_add, derivative_C, derivative_X,
    derivative_X_sq, derivative_one, eval_mul, eval_sub, eval_add, eval_pow, eval_C, eval_X,
    eval_zero, eval_one] at h
  linear_combination h

/-- Jacobi's differential equation. -/
theorem jacobi_ode (a n : ℕ) :
    (1 - X ^ 2) * derivative (derivative (jacobiPolynomial K a n)) -
        (C (a : K) + C (a + 2 : K) * X) * derivative (jacobiPolynomial K a n) +
      C (n * (n + a + 1) : K) * jacobiPolynomial K a n = 0 := by
  cases n with
  | zero => simp [jacobiPolynomial]
  | succ n =>
    have hc : (2 * n + 2 + a : K) ≠ 0 := by positivity
    have hX : (1 - X ^ 2 : K[X]) ≠ 0 := by
      intro h
      have := congrArg (eval 0) h
      simp at this
    apply mul_left_cancel₀ hX
    refine Polynomial.funext fun x => ?_
    obtain ⟨upper, lower⟩ := jacobi_structure a n x
    have hderiv := eval_derivative_structure a n x
    apply mul_left_cancel₀ (pow_ne_zero 2 hc)
    simp only [eval_mul, eval_sub, eval_add, eval_pow, eval_C, eval_X, eval_one, eval_zero]
    push_cast
    linear_combination (2 * n + 2 + a : K) * (1 - x ^ 2) * hderiv +
      2 * (n + 1 : K) * (n + 1 + a) * lower -
      (n + 1 + a : K) * (a + (2 * n + 2 + a) * x) * upper

/-! ## Degree -/

omit [LinearOrder K] [IsStrictOrderedRing K] in
theorem natDegree_jacobiPolynomial_le (a : ℕ) : ∀ n, (jacobiPolynomial K a n).natDegree ≤ n
  | 0 => by simp [jacobiPolynomial]
  | 1 => by
    unfold jacobiPolynomial
    exact (natDegree_C_mul_le _ _).trans natDegree_linear_le
  | n + 2 => by
    have ih₁ := natDegree_jacobiPolynomial_le a (n + 1)
    have ih₀ := natDegree_jacobiPolynomial_le a n
    unfold jacobiPolynomial
    refine (natDegree_C_mul_le _ _).trans
      ((natDegree_sub_le_of_le ?_ ?_).trans_eq (max_self (n + 2)))
    · have hlin : (C (2 * n + 3 + a : K) *
          (C ((2 * n + 4 + a) * (2 * n + 2 + a) : K) * X + C ((a : K) ^ 2))).natDegree ≤ 1 :=
        (natDegree_C_mul_le _ _).trans natDegree_linear_le
      have := natDegree_mul_le_of_le hlin ih₁
      omega
    · exact (natDegree_C_mul_le _ _).trans (by omega)

/-- The highest coefficients of two neighbours. -/
theorem topCoeff_succ (a n : ℕ) :
    2 * (n + 1) * (n + 1 + a) * (jacobiPolynomial K a (n + 1)).coeff (n + 1) =
      (2 * n + 1 + a) * (2 * n + 2 + a) * (jacobiPolynomial K a n).coeff n := by
  cases n with
  | zero =>
    simp [jacobiPolynomial]
    ring
  | succ n =>
    have hc : (2 * n + 2 + a : K) ≠ 0 := by positivity
    have h₁ : (jacobiPolynomial K a (n + 1)).coeff (n + 2) = 0 :=
      coeff_eq_zero_of_natDegree_lt
        (Nat.lt_succ_of_le (natDegree_jacobiPolynomial_le a (n + 1)))
    have h₀ : (jacobiPolynomial K a n).coeff (n + 2) = 0 :=
      coeff_eq_zero_of_natDegree_lt
        (Nat.lt_of_le_of_lt (natDegree_jacobiPolynomial_le a n) (by omega))
    have h := congrArg (fun p => coeff p (n + 2)) (jacobiPolynomial_rec (K := K) a n)
    simp only [mul_add, add_mul, mul_assoc, coeff_add, coeff_sub, coeff_C_mul, coeff_X_mul, h₁, h₀]
      at h
    apply mul_left_cancel₀ hc
    push_cast
    linear_combination h

theorem topCoeff_pos (a n : ℕ) : 0 < (jacobiPolynomial K a n).coeff n := by
  induction n with
  | zero => simp [jacobiPolynomial]
  | succ n ih =>
    have h := topCoeff_succ (K := K) a n
    have hpos : 0 < (2 * n + 1 + a : K) * (2 * n + 2 + a) * (jacobiPolynomial K a n).coeff n := by
      positivity
    rw [← h] at hpos
    exact pos_of_mul_pos_right hpos (by positivity)

theorem natDegree_jacobiPolynomial (a n : ℕ) : (jacobiPolynomial K a n).natDegree = n :=
  natDegree_eq_of_le_of_coeff_ne_zero (natDegree_jacobiPolynomial_le a n) (topCoeff_pos a n).ne'

theorem leadingCoeff_jacobiPolynomial (a n : ℕ) :
    (jacobiPolynomial K a n).leadingCoeff = (jacobiPolynomial K a n).coeff n := by
  rw [leadingCoeff, natDegree_jacobiPolynomial]

theorem jacobiPolynomial_ne_zero (a n : ℕ) : jacobiPolynomial K a n ≠ 0 := by
  intro h
  have := topCoeff_pos (K := K) a n
  rw [h, coeff_zero] at this
  exact this.false

/-- The value at the left end. -/
theorem eval_neg_one (a n : ℕ) : (jacobiPolynomial K a n).eval (-1) = (-1) ^ n := by
  induction n with
  | zero => simp [jacobiPolynomial]
  | succ n ih =>
    have h := (jacobi_structure (K := K) a n (-1)).2
    have hc : (2 * (n + 1) * (n + 1 + a) : K) ≠ 0 := by positivity
    rw [ih] at h
    apply mul_left_cancel₀ hc
    rw [pow_succ]
    linear_combination h

/-! ## Evaluation -/

section Evaluation

open scoped Scalar.Exact

/-- The pair that the recurrence computes. -/
theorem jacobiPair_eq_eval (a m : ℕ) (x : K) :
    jacobiPair (a : K) x m =
      ((jacobiPolynomial K a (m + 1)).eval x, (jacobiPolynomial K a m).eval x) := by
  induction m with
  | zero =>
    unfold jacobiPair
    simp [jacobiPolynomial]
  | succ m ih =>
    have hrec := eval_rec a m x
    have hlead : (2 * (m + 2) * (m + 2 + a) * (2 * m + 2 + a) : K) ≠ 0 := by positivity
    unfold jacobiPair
    rw [ih]
    simp only [Scalar.Exact.ofNat_one]
    push_cast
    refine Prod.ext ?_ rfl
    have hlead' : (2 * (m + 2) * (m + 2 + a) * (2 * (m + 2) + a - 2) : K) ≠ 0 := by
      intro h
      exact hlead (by linear_combination h)
    refine (div_eq_iff hlead').mpr ?_
    linear_combination -hrec

/-- The value and the slope that are computed at a point inside are those of the polynomial. -/
theorem jacobi_eq_eval (a m : ℕ) (hx : x ^ 2 ≠ 1) :
    jacobi (m + 1) (a : K) x = ⟨(jacobiPolynomial K a (m + 1)).eval x,
      (derivative (jacobiPolynomial K a (m + 1))).eval x⟩ := by
  have hden : (2 * (m + 1 : K) + a) * (1 - x * x) ≠ 0 := by
    refine mul_ne_zero (by positivity) fun h => hx ?_
    linear_combination -h
  unfold jacobi
  simp only [Nat.add_sub_cancel, jacobiPair_eq_eval, Scalar.Exact.ofNat_one]
  push_cast
  congr 1
  refine (div_eq_iff hden).mpr ?_
  linear_combination -(jacobi_structure a m x).1

/-- Without an exponent the recurrence is the one of the Legendre polynomials. -/
theorem legendrePair_eq_eval (m : ℕ) (x : K) :
    legendrePair x m =
      ((jacobiPolynomial K 0 (m + 1)).eval x, (jacobiPolynomial K 0 m).eval x) := by
  induction m with
  | zero =>
    unfold legendrePair
    simp [jacobiPolynomial]
  | succ m ih =>
    have hrec := eval_rec 0 m x
    have hk : (m + 2 : K) ≠ 0 := by positivity
    have hfactor : (2 * (m + 2) * (2 * m + 2) : K) ≠ 0 := by positivity
    unfold legendrePair
    rw [ih]
    simp only [Scalar.Exact.ofNat_one]
    push_cast at hrec ⊢
    refine Prod.ext ((div_eq_iff hk).mpr ?_) rfl
    apply mul_left_cancel₀ hfactor
    linear_combination -hrec

theorem legendre_eq_eval (m : ℕ) (hx : x ^ 2 ≠ 1) :
    legendre (m + 1) x = ⟨(jacobiPolynomial K 0 (m + 1)).eval x,
      (derivative (jacobiPolynomial K 0 (m + 1))).eval x⟩ := by
  have hden : x * x - 1 ≠ 0 := by
    intro h
    exact hx (by linear_combination h)
  have hfactor : (2 * m + 2 : K) ≠ 0 := by positivity
  have hupper := (jacobi_structure 0 m x).1
  unfold legendre
  simp only [Nat.add_sub_cancel, legendrePair_eq_eval, Scalar.Exact.ofNat_one]
  push_cast at hupper ⊢
  congr 1
  refine (div_eq_iff hden).mpr ?_
  apply mul_left_cancel₀ hfactor
  linear_combination hupper

/-- The weight that is computed, by the slope of the polynomial. -/
theorem jacobiWeight_eq_div (a m : ℕ) (scale : K) (hx : x ^ 2 ≠ 1) :
    jacobiWeight (m + 1) (a : K) scale x =
      scale / ((1 - x ^ 2) * (derivative (jacobiPolynomial K a (m + 1))).eval x ^ 2) := by
  unfold jacobiWeight
  simp only [jacobi_eq_eval a m hx, Scalar.Exact.ofNat_one]
  rw [pow_two, pow_two, mul_assoc]

theorem legendreWeight_eq_div (m : ℕ) (hx : x ^ 2 ≠ 1) :
    legendreWeight (m + 1) x =
      2 / ((1 - x ^ 2) * (derivative (jacobiPolynomial K 0 (m + 1))).eval x ^ 2) := by
  unfold legendreWeight
  simp only [legendre_eq_eval m hx, Scalar.Exact.ofNat_one]
  rw [pow_two, pow_two, mul_assoc]

end Evaluation

end Cubature.Gauss
