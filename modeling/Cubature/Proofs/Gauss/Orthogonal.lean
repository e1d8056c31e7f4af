import Cubature.Proofs.Gauss.Polynomial
import Mathlib.Analysis.Calculus.Deriv.Polynomial
import Mathlib.MeasureTheory.Integral.IntervalIntegral.FundThmCalculus

/-!
# Orthogonality

`weighted a` is the integral over `[-1, 1]` with the weight `(1 - x) ^ a`, as a linear form on
polynomials. All that is used of it is integration by parts (`weighted_parts`).

* `weighted_mul_of_lt`: `P_n^(a,0)` is orthogonal to every polynomial of a lower degree.
* `weighted_mul_of_le`: of a polynomial of degree `n` only the highest coefficient counts.
* `weighted_sq`: the norm of `P_n^(a,0)`.
-/

namespace Cubature.Gauss

open Polynomial

variable {a n : ℕ} {p : ℝ[X]}

/-- The integral over `[-1, 1]` with the weight `(1 - x) ^ a`. -/
noncomputable def weighted (a : ℕ) : ℝ[X] →ₗ[ℝ] ℝ where
  toFun p := ∫ x in (-1 : ℝ)..1, (1 - x) ^ a * p.eval x
  map_add' p q := by
    simp only [eval_add, mul_add]
    have hp : Continuous fun x : ℝ => (1 - x) ^ a * p.eval x := by fun_prop
    have hq : Continuous fun x : ℝ => (1 - x) ^ a * q.eval x := by fun_prop
    exact intervalIntegral.integral_add (hp.intervalIntegrable _ _) (hq.intervalIntegrable _ _)
  map_smul' c p := by
    simp only [eval_smul, smul_eq_mul, RingHom.id_apply, mul_left_comm]
    exact intervalIntegral.integral_const_mul _ _

theorem weighted_C_mul (a : ℕ) (c : ℝ) (p : ℝ[X]) : weighted a (C c * p) = c * weighted a p := by
  rw [← smul_eq_C_mul, map_smul, smul_eq_mul]

/-- Without negative values the integral is positive, since the roots are finitely many. -/
theorem weighted_pos (a : ℕ) (hp : p ≠ 0) (h : ∀ x ∈ Set.Icc (-1 : ℝ) 1, 0 ≤ p.eval x) :
    0 < weighted a p := by
  obtain ⟨c, hc, hroot⟩ : ∃ c ∈ Set.Ioo (-1 : ℝ) 1, c ∉ p.roots.toFinset :=
    (Set.Ioo_infinite (by norm_num)).exists_notMem_finset _
  have hvalue : p.eval c ≠ 0 := by
    rwa [Multiset.mem_toFinset, mem_roots hp, IsRoot.def] at hroot
  have hmem : c ∈ Set.Icc (-1 : ℝ) 1 := Set.Ioo_subset_Icc_self hc
  refine intervalIntegral.integral_pos (by norm_num) (by fun_prop) (fun x hx => ?_) ⟨c, hmem, ?_⟩
  · exact mul_nonneg (pow_nonneg (by linarith [hx.2]) a) (h x (Set.Ioc_subset_Icc_self hx))
  · exact mul_pos (pow_pos (by linarith [hc.2]) a) ((h c hmem).lt_of_ne' hvalue)

/-- Integration by parts: `(1 - x) ^ (a + 1) r` is zero at the right end. -/
theorem weighted_parts (a : ℕ) (r : ℝ[X]) :
    weighted a ((1 - X) * derivative r - C (a + 1 : ℝ) * r) = -2 ^ (a + 1) * r.eval (-1) := by
  have hderiv : ∀ x ∈ Set.uIcc (-1 : ℝ) 1, HasDerivAt (fun x => (1 - x) ^ (a + 1) * r.eval x)
      ((1 - x) ^ a * ((1 - X) * derivative r - C (a + 1 : ℝ) * r).eval x) x := by
    intro x _
    have hpow : HasDerivAt (fun x : ℝ => (1 - x) ^ (a + 1)) (-((a + 1) * (1 - x) ^ a)) x := by
      refine (((hasDerivAt_id' x).const_sub 1).fun_pow (a + 1)).congr_deriv ?_
      push_cast
      simp
    refine (hpow.fun_mul (r.hasDerivAt x)).congr_deriv ?_
    simp only [eval_sub, eval_mul, eval_C, eval_X, eval_one]
    ring
  have hcont : Continuous fun x : ℝ =>
      (1 - x) ^ a * ((1 - X) * derivative r - C (a + 1 : ℝ) * r).eval x := by fun_prop
  have h := intervalIntegral.integral_eq_sub_of_hasDerivAt hderiv (hcont.intervalIntegrable _ _)
  refine h.trans ?_
  norm_num

/-- The form of the differential equation that integrates to zero. -/
theorem weighted_sturm (a : ℕ) (q : ℝ[X]) :
    weighted a ((1 - X ^ 2) * derivative q - (C (a : ℝ) + C (a + 2 : ℝ) * X) * q) = 0 := by
  have h := weighted_parts a ((1 + X) * q)
  have hr : (1 - X) * derivative ((1 + X) * q) - C (a + 1 : ℝ) * ((1 + X) * q) =
      (1 - X ^ 2) * derivative q - (C (a : ℝ) + C (a + 2 : ℝ) * X) * q := by
    simp only [derivative_mul, derivative_add, derivative_one, derivative_X, C_add, C_1,
      show C (2 : ℝ) = 2 from rfl]
    ring
  rw [hr] at h
  simpa using h

/-- All but the constant polynomial integrate to zero. -/
theorem weighted_jacobiPolynomial (hn : 0 < n) : weighted a (jacobiPolynomial ℝ a n) = 0 := by
  have hode := jacobi_ode (K := ℝ) a n
  have h := weighted_sturm a (derivative (jacobiPolynomial ℝ a n))
  have hn : (0 : ℝ) < n := by exact_mod_cast hn
  have hc : (n * (n + a + 1) : ℝ) ≠ 0 := by positivity
  rw [eq_neg_of_add_eq_zero_left hode, map_neg, weighted_C_mul, neg_eq_zero] at h
  exact (mul_eq_zero.mp h).resolve_left hc

/-- A power of `x` is orthogonal to all polynomials of a higher degree: by the recurrence, the
power above it is integrated against three neighbours of the polynomial. -/
theorem weighted_X_pow_mul (a j : ℕ) {n : ℕ} (hn : j < n) :
    weighted a (X ^ j * jacobiPolynomial ℝ a n) = 0 := by
  induction j generalizing n with
  | zero =>
    rw [pow_zero, one_mul]
    exact weighted_jacobiPolynomial hn
  | succ j ih =>
    obtain ⟨m, rfl⟩ : ∃ m, n = m + 1 := ⟨n - 1, by omega⟩
    have hc : (2 * m + 3 + a : ℝ) * ((2 * m + 4 + a) * (2 * m + 2 + a)) ≠ 0 := by positivity
    have hrec : C ((2 * m + 3 + a : ℝ) * ((2 * m + 4 + a) * (2 * m + 2 + a))) *
          (X ^ (j + 1) * jacobiPolynomial ℝ a (m + 1)) =
        C (2 * (m + 2) * (m + 2 + a) * (2 * m + 2 + a) : ℝ) *
            (X ^ j * jacobiPolynomial ℝ a (m + 2)) -
          C ((2 * m + 3 + a : ℝ) * (a : ℝ) ^ 2) * (X ^ j * jacobiPolynomial ℝ a (m + 1)) +
          C (2 * (m + 1 + a) * (m + 1) * (2 * m + 4 + a) : ℝ) *
            (X ^ j * jacobiPolynomial ℝ a m) := by
      have h := jacobiPolynomial_rec (K := ℝ) a m
      simp only [C_mul] at h ⊢
      linear_combination -X ^ j * h
    apply mul_left_cancel₀ hc
    rw [← weighted_C_mul, hrec, map_add, map_sub, weighted_C_mul, weighted_C_mul, weighted_C_mul,
      ih (by omega), ih (by omega), ih (by omega)]
    ring

theorem weighted_sum_mul (a n : ℕ) (c : ℕ → ℝ) :
    weighted a ((∑ j ∈ Finset.range n, C (c j) * X ^ j) * jacobiPolynomial ℝ a n) = 0 := by
  rw [Finset.sum_mul, map_sum]
  refine Finset.sum_eq_zero fun j hj => ?_
  rw [mul_assoc, weighted_C_mul, weighted_X_pow_mul a j (Finset.mem_range.mp hj), mul_zero]

/-- A polynomial is orthogonal to all polynomials of a lower degree. -/
theorem weighted_mul_of_lt (a : ℕ) (hp : p.natDegree < n) :
    weighted a (p * jacobiPolynomial ℝ a n) = 0 := by
  rw [p.as_sum_range_C_mul_X_pow' hp]
  exact weighted_sum_mul a n p.coeff

/-- Of a polynomial of the same degree only the highest coefficient counts. -/
theorem weighted_mul_of_le (a : ℕ) (hp : p.natDegree ≤ n) :
    weighted a (p * jacobiPolynomial ℝ a n) =
      p.coeff n * weighted a (X ^ n * jacobiPolynomial ℝ a n) := by
  have hsum : p = C (p.coeff n) * X ^ n + ∑ j ∈ Finset.range n, C (p.coeff j) * X ^ j := by
    conv_lhs => rw [p.as_sum_range_C_mul_X_pow' (Nat.lt_succ_of_le hp), Finset.sum_range_succ]
    exact add_comm _ _
  conv_lhs =>
    rw [hsum, add_mul, map_add, weighted_sum_mul, add_zero, mul_assoc, weighted_C_mul]

/-- The degree and the highest coefficient of a derivative times `1 - x`. -/
theorem one_sub_X_mul_derivative (hp : p.natDegree ≤ n) :
    ((1 - X) * derivative p).natDegree ≤ n ∧
      ((1 - X) * derivative p).coeff n = -(n * p.coeff n) := by
  have htop : (derivative p).coeff n = 0 := by
    rw [coeff_derivative, coeff_eq_zero_of_natDegree_lt (Nat.lt_succ_of_le hp), zero_mul]
  rw [sub_mul, one_mul]
  cases n with
  | zero =>
    obtain ⟨c, rfl⟩ : ∃ c, p = C c := ⟨p.coeff 0, eq_C_of_natDegree_le_zero hp⟩
    simp
  | succ n =>
    constructor
    · have hder := (natDegree_derivative_le p).trans (Nat.sub_le_sub_right hp 1)
      have hX : (X * derivative p).natDegree ≤ n + 1 := by
        have := natDegree_mul_le_of_le (natDegree_X_le (R := ℝ)) hder
        omega
      exact natDegree_sub_le_of_le (hder.trans (by omega)) hX |>.trans_eq (max_self _)
    · rw [coeff_sub, htop, coeff_X_mul, coeff_derivative]
      push_cast
      ring

/-- The norm: by parts, from the value at the left end. -/
theorem weighted_sq (a n : ℕ) :
    (2 * n + a + 1) * weighted a (jacobiPolynomial ℝ a n * jacobiPolynomial ℝ a n) =
      2 ^ (a + 1) := by
  set P := jacobiPolynomial ℝ a n with hP
  have hparts := weighted_parts a (P * P)
  have hval : (P * P).eval (-1) = 1 := by
    rw [eval_mul, hP, eval_neg_one, ← mul_pow]
    norm_num
  have hsplit : (1 - X) * derivative (P * P) - C (a + 1 : ℝ) * (P * P) =
      C 2 * ((1 - X) * derivative P * P) - C (a + 1 : ℝ) * (P * P) := by
    rw [derivative_mul, show C (2 : ℝ) = 2 from rfl]
    ring
  have hle := natDegree_jacobiPolynomial_le (K := ℝ) a n
  obtain ⟨hdeg, hcoeff⟩ := one_sub_X_mul_derivative hle
  rw [hsplit, map_sub, weighted_C_mul, weighted_C_mul, hval, mul_one, weighted_mul_of_le a hdeg,
    hcoeff] at hparts
  have hsq := weighted_mul_of_le a hle
  linear_combination -hparts + 2 * n * hsq

end Cubature.Gauss
