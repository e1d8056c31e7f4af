import Cubature.Proofs.Gauss.Orthogonal
import Mathlib.LinearAlgebra.Lagrange

/-!
# Gaussian quadrature

A rule whose `n` nodes are roots of `P_n^(a,0)` and whose weights integrate the Lagrange
polynomials is exact up to degree `2 n - 1` (`weighted_eq_sum`). These weights are the ones that
are computed from the slopes (`weighted_basis`), so the computed rules are exact
(`quadrature_exact`).
-/

namespace Cubature.Gauss

open Polynomial Finset

section Nodes

variable {a n : ℕ} {z : Fin n → ℝ} {p : ℝ[X]}

/-- With `n` roots the polynomial is the product over its roots, up to its highest coefficient. -/
theorem jacobiPolynomial_eq_nodal (hz : Function.Injective z)
    (hroot : ∀ i, (jacobiPolynomial ℝ a n).eval (z i) = 0) :
    jacobiPolynomial ℝ a n = C ((jacobiPolynomial ℝ a n).coeff n) * Lagrange.nodal univ z := by
  have hk : (jacobiPolynomial ℝ a n).coeff n ≠ 0 := (topCoeff_pos a n).ne'
  have hdeg : (jacobiPolynomial ℝ a n).degree = n := by
    rw [degree_eq_natDegree (jacobiPolynomial_ne_zero a n), natDegree_jacobiPolynomial]
  refine eq_of_degree_le_of_eval_index_eq univ hz.injOn ?_ ?_ ?_ fun i _ => ?_
  · rw [hdeg, card_univ, Fintype.card_fin]
  · rw [hdeg, degree_C_mul hk, Lagrange.degree_nodal, card_univ, Fintype.card_fin]
  · rw [leadingCoeff_jacobiPolynomial, leadingCoeff_mul, leadingCoeff_C,
      Lagrange.nodal_monic.leadingCoeff, mul_one]
  · rw [hroot, eval_mul, Lagrange.eval_nodal_at_node (mem_univ i), mul_zero]

/-- Up to degree `2 n - 1` the integral is a sum over the nodes: the multiple of the polynomial
integrates to zero, and what is left is interpolated. -/
theorem weighted_eq_sum (hz : Function.Injective z)
    (hroot : ∀ i, (jacobiPolynomial ℝ a n).eval (z i) = 0) (hp : p.natDegree < 2 * n) :
    weighted a p = ∑ i, weighted a (Lagrange.basis univ z i) * p.eval (z i) := by
  have hnodal := jacobiPolynomial_eq_nodal hz hroot
  have hk : (jacobiPolynomial ℝ a n).coeff n ≠ 0 := (topCoeff_pos a n).ne'
  have hmonic : (Lagrange.nodal univ z).Monic := Lagrange.nodal_monic
  have hcard : (Lagrange.nodal univ z).natDegree = n := by
    rw [Lagrange.natDegree_nodal, card_univ, Fintype.card_fin]
  set q := p /ₘ Lagrange.nodal univ z
  set r := p %ₘ Lagrange.nodal univ z
  have hdiv : r + Lagrange.nodal univ z * q = p := modByMonic_add_div p _
  have hq : q.natDegree < n := by
    rw [natDegree_divByMonic p hmonic, hcard]
    omega
  have horth : weighted a (Lagrange.nodal univ z * q) = 0 := by
    have h := weighted_mul_of_lt a hq
    rw [hnodal, mul_left_comm, weighted_C_mul, mul_comm q] at h
    exact (mul_eq_zero.mp h).resolve_left hk
  have hr : r = Lagrange.interpolate univ z fun i => r.eval (z i) := by
    refine Lagrange.eq_interpolate hz.injOn ?_
    have := degree_modByMonic_lt p hmonic
    rwa [Lagrange.degree_nodal] at this
  have heval : ∀ i, r.eval (z i) = p.eval (z i) := by
    intro i
    rw [← hdiv, eval_add, eval_mul, Lagrange.eval_nodal_at_node (mem_univ i), zero_mul, add_zero]
  calc weighted a p = weighted a r := by rw [← hdiv, map_add, horth, add_zero]
    _ = ∑ i, weighted a (C (r.eval (z i)) * Lagrange.basis univ z i) := by
      conv_lhs => rw [hr, Lagrange.interpolate_apply, map_sum]
    _ = ∑ i, weighted a (Lagrange.basis univ z i) * p.eval (z i) := by
      refine sum_congr rfl fun i _ => ?_
      rw [weighted_C_mul, heval, mul_comm]

/-- The highest coefficient of a Lagrange polynomial, by the slope at its node. -/
theorem coeff_basis_mul_slope (hz : Function.Injective z)
    (hroot : ∀ i, (jacobiPolynomial ℝ a n).eval (z i) = 0) (i : Fin n) :
    (Lagrange.basis univ z i).leadingCoeff *
        (derivative (jacobiPolynomial ℝ a n)).eval (z i) =
      (jacobiPolynomial ℝ a n).coeff n := by
  have hprod : ∏ j ∈ univ.erase i, (z i - z j) ≠ 0 := by
    refine prod_ne_zero_iff.mpr fun j hj => sub_ne_zero.mpr fun h => ?_
    exact ne_of_mem_erase hj (hz h).symm
  rw [Lagrange.leadingCoeff_basis hz.injOn (mem_univ i)]
  conv_lhs => rw [jacobiPolynomial_eq_nodal hz hroot]
  rw [derivative_C_mul, eval_C_mul, Lagrange.eval_nodal_derivative_eval_node_eq (mem_univ i),
    Lagrange.eval_nodal, mul_left_comm, inv_mul_cancel₀ hprod, mul_one]

end Nodes

section Weights

variable {a m : ℕ} {z : Fin (m + 1) → ℝ}

/-- The integral of a Lagrange polynomial against the neighbour of a lower degree: once as the sum
over the nodes, where only its own node counts, and once by its highest coefficient. -/
theorem weighted_basis_mul (hz : Function.Injective z)
    (hroot : ∀ i, (jacobiPolynomial ℝ a (m + 1)).eval (z i) = 0) (i : Fin (m + 1)) :
    weighted a (Lagrange.basis univ z i) * (jacobiPolynomial ℝ a m).eval (z i) =
      (Lagrange.basis univ z i).leadingCoeff *
        weighted a (X ^ m * jacobiPolynomial ℝ a m) := by
  have hbasis : (Lagrange.basis univ z i).natDegree = m := by
    rw [Lagrange.natDegree_basis hz.injOn (mem_univ i), card_univ, Fintype.card_fin,
      Nat.add_sub_cancel]
  have hle := natDegree_jacobiPolynomial_le (K := ℝ) a m
  have hdeg : (Lagrange.basis univ z i * jacobiPolynomial ℝ a m).natDegree < 2 * (m + 1) := by
    have := natDegree_mul_le_of_le hbasis.le hle
    omega
  have hsum := weighted_eq_sum hz hroot hdeg
  rw [sum_eq_single i] at hsum
  · rw [eval_mul, Lagrange.eval_basis_self hz.injOn (mem_univ i), one_mul] at hsum
    rw [← hsum, weighted_mul_of_le a hbasis.le, leadingCoeff, hbasis]
  · intro j _ hj
    rw [eval_mul, Lagrange.eval_basis_of_ne hj.symm (mem_univ j), zero_mul, mul_zero]
  · exact fun h => absurd (mem_univ i) h

/-- The integral of a Lagrange polynomial, by the slope at its node. -/
theorem weighted_basis (hz : Function.Injective z)
    (hroot : ∀ i, (jacobiPolynomial ℝ a (m + 1)).eval (z i) = 0) (i : Fin (m + 1)) :
    weighted a (Lagrange.basis univ z i) * ((1 - z i ^ 2) *
        (derivative (jacobiPolynomial ℝ a (m + 1))).eval (z i) ^ 2) = 2 ^ (a + 1) := by
  have hc : (2 * m + 2 + a : ℝ) ≠ 0 := by positivity
  have hupper := (jacobi_structure a m (z i)).1
  have htop := topCoeff_succ (K := ℝ) a m
  have hmul := weighted_basis_mul hz hroot i
  have hlead := coeff_basis_mul_slope hz hroot i
  have hnorm := weighted_sq a m
  rw [weighted_mul_of_le a (natDegree_jacobiPolynomial_le a m)] at hnorm
  rw [hroot i, mul_zero, zero_add] at hupper
  set w := weighted a (Lagrange.basis univ z i)
  set dp := (derivative (jacobiPolynomial ℝ a (m + 1))).eval (z i)
  set g := weighted a (X ^ m * jacobiPolynomial ℝ a m)
  apply mul_left_cancel₀ hc
  calc (2 * m + 2 + a) * (w * ((1 - z i ^ 2) * dp ^ 2))
      = w * dp * ((2 * m + 2 + a) * (1 - z i ^ 2) * dp) := by ring
    _ = 2 * (m + 1) * (m + 1 + a) * (w * (jacobiPolynomial ℝ a m).eval (z i)) * dp := by
      rw [hupper]
      ring
    _ = 2 * (m + 1) * (m + 1 + a) * (jacobiPolynomial ℝ a (m + 1)).coeff (m + 1) * g := by
      rw [hmul]
      linear_combination 2 * (m + 1 : ℝ) * (m + 1 + a) * g * hlead
    _ = (2 * m + 2 + a) * ((2 * m + a + 1) * ((jacobiPolynomial ℝ a m).coeff m * g)) := by
      rw [htop]
      ring
    _ = (2 * m + 2 + a) * 2 ^ (a + 1) := by rw [hnorm]

/-- The weight computed from the slope is the integral of the Lagrange polynomial. -/
theorem weighted_basis_eq_div (hz : Function.Injective z)
    (hroot : ∀ i, (jacobiPolynomial ℝ a (m + 1)).eval (z i) = 0) (i : Fin (m + 1)) :
    weighted a (Lagrange.basis univ z i) = 2 ^ (a + 1) / ((1 - z i ^ 2) *
        (derivative (jacobiPolynomial ℝ a (m + 1))).eval (z i) ^ 2) := by
  have h := weighted_basis hz hroot i
  have hpow : (2 : ℝ) ^ (a + 1) ≠ 0 := by positivity
  rw [← h] at hpow
  exact eq_div_of_mul_eq (right_ne_zero_of_mul hpow) h

end Weights

/-! ## The computed rules -/

section Computed

open scoped Scalar.Exact

variable {n alpha : ℕ} {z : Fin n → ℝ} {p : ℝ[X]}

theorem sq_ne_one {x : ℝ} (hx : x ∈ Set.Ioo (-1 : ℝ) 1) : x ^ 2 ≠ 1 := by
  have := sq_lt_one_iff_abs_lt_one x |>.mpr (abs_lt.mpr hx)
  exact this.ne

/-- The rule with the weights for `(1 - x) ^ alpha`. -/
theorem jacobi_quadrature (hn : 1 ≤ n) (hz : Function.Injective z)
    (hmem : ∀ i, z i ∈ Set.Ioo (-1 : ℝ) 1) (hroot : ∀ i, (jacobi n (alpha : ℝ) (z i)).value = 0)
    (hp : p.natDegree ≤ 2 * n - 1) :
    ∑ i, jacobiWeight n (alpha : ℝ) (Scalar.powerInt 2 (alpha + 1)) (z i) * p.eval (z i) =
      weighted alpha p := by
  obtain ⟨m, rfl⟩ : ∃ m, n = m + 1 := ⟨n - 1, by omega⟩
  have hjet := fun i => jacobi_eq_eval alpha m (sq_ne_one (hmem i))
  simp only [hjet] at hroot
  rw [weighted_eq_sum hz hroot (by omega)]
  refine sum_congr rfl fun i _ => ?_
  rw [weighted_basis_eq_div hz hroot, jacobiWeight_eq_div alpha m _ (sq_ne_one (hmem i)),
    ← Nat.cast_succ, Scalar.powerInt_natCast]

/-- The rule with the weights of the Legendre polynomial. -/
theorem legendre_quadrature (hn : 1 ≤ n) (hz : Function.Injective z)
    (hmem : ∀ i, z i ∈ Set.Ioo (-1 : ℝ) 1) (hroot : ∀ i, (legendre n (z i)).value = 0)
    (hp : p.natDegree ≤ 2 * n - 1) :
    ∑ i, legendreWeight n (z i) * p.eval (z i) = weighted 0 p := by
  obtain ⟨m, rfl⟩ : ∃ m, n = m + 1 := ⟨n - 1, by omega⟩
  have hjet := fun i => legendre_eq_eval m (sq_ne_one (hmem i))
  simp only [hjet] at hroot
  rw [weighted_eq_sum hz hroot (by omega)]
  refine sum_congr rfl fun i _ => ?_
  rw [weighted_basis_eq_div hz hroot, legendreWeight_eq_div m (sq_ne_one (hmem i)), zero_add,
    pow_one]

/-- Gaussian exactness. At `n` different points inside where the computed polynomial is zero, the
computed weights integrate every polynomial of degree at most `2 n - 1`, over `[-1, 1]` for the
Legendre polynomial and with the weight `(1 - x) ^ alpha` for the Jacobi polynomial. -/
theorem quadrature_exact (hn : 1 ≤ n) (hz : Function.Injective z)
    (hmem : ∀ i, z i ∈ Set.Ioo (-1 : ℝ) 1) (hp : p.natDegree ≤ 2 * n - 1) :
    ((∀ i, (legendre n (z i)).value = 0) →
      ∑ i, legendreWeight n (z i) * p.eval (z i) = ∫ x in (-1 : ℝ)..1, p.eval x) ∧
    ∀ alpha : ℕ, 1 ≤ alpha → (∀ i, (jacobi n (alpha : ℝ) (z i)).value = 0) →
      ∑ i, jacobiWeight n (alpha : ℝ) (Scalar.powerInt 2 (alpha + 1)) (z i) * p.eval (z i) =
        ∫ x in (-1 : ℝ)..1, (1 - x) ^ alpha * p.eval x := by
  constructor
  · intro hroot
    rw [legendre_quadrature hn hz hmem hroot hp]
    show ∫ x in (-1 : ℝ)..1, (1 - x) ^ 0 * p.eval x = _
    simp only [pow_zero, one_mul]
  · intro alpha _ hroot
    exact jacobi_quadrature hn hz hmem hroot hp

/-- The two-point Legendre rule on a cubic, and the one-point rule for `(1 - x) ^ 3`. -/
theorem quadrature_exact_examples :
    (∃ z : Fin 2 → ℝ, Function.Injective z ∧ (∀ i, z i ∈ Set.Ioo (-1 : ℝ) 1) ∧
      (∀ i, (legendre 2 (z i)).value = 0) ∧
      ∑ i, legendreWeight 2 (z i) * (X ^ 3 + X ^ 2 : ℝ[X]).eval (z i) =
        ∫ x in (-1 : ℝ)..1, (X ^ 3 + X ^ 2 : ℝ[X]).eval x) ∧
    ∃ z : Fin 1 → ℝ, (∀ i, z i ∈ Set.Ioo (-1 : ℝ) 1) ∧
      (∀ i, (jacobi 1 ((3 : ℕ) : ℝ) (z i)).value = 0) ∧
      ∑ i, jacobiWeight 1 ((3 : ℕ) : ℝ) (Scalar.powerInt 2 ((3 : ℕ) + 1)) (z i) *
          (X : ℝ[X]).eval (z i) =
        ∫ x in (-1 : ℝ)..1, (1 - x) ^ 3 * (X : ℝ[X]).eval x := by
  constructor
  · obtain ⟨s, hpos, hlt, hsq⟩ : ∃ s : ℝ, 0 < s ∧ s < 1 ∧ 3 * s ^ 2 = 1 := by
      have hpos : 0 < √3 := by positivity
      have hthree : √3 ^ 2 = 3 := Real.sq_sqrt (by norm_num)
      have hgt : 1 < √3 := by nlinarith
      exact ⟨(√3)⁻¹, by positivity, inv_lt_one_of_one_lt₀ hgt, by rw [inv_pow, hthree]; norm_num⟩
    have hz : Function.Injective ![-s, s] := by
      intro i j h
      fin_cases i <;> fin_cases j <;>
        simp only [Fin.mk_zero, Fin.mk_one, Matrix.cons_val] at h ⊢ <;> linarith
    have hmem : ∀ i, ![-s, s] i ∈ Set.Ioo (-1 : ℝ) 1 := by
      intro i
      fin_cases i <;> constructor <;> simp only [Fin.mk_zero, Fin.mk_one, Matrix.cons_val] <;>
        linarith
    have hroot : ∀ i, (legendre 2 (![-s, s] i)).value = 0 := by
      intro i
      have hsquare : 3 * (![-s, s] i) ^ 2 = 1 := by
        fin_cases i <;> simpa using hsq
      simp only [legendre, legendrePair, Scalar.Exact.ofNat_one]
      push_cast
      linear_combination hsquare / 2
    have hdeg : (X ^ 3 + X ^ 2 : ℝ[X]).natDegree ≤ 2 * 2 - 1 := by
      compute_degree
    exact ⟨_, hz, hmem, hroot, (quadrature_exact (by decide) hz hmem hdeg).1 hroot⟩
  · have hz : Function.Injective ![-(3 / 5 : ℝ)] := Function.injective_of_subsingleton _
    have hmem : ∀ i, ![-(3 / 5 : ℝ)] i ∈ Set.Ioo (-1 : ℝ) 1 := by
      intro i
      fin_cases i
      norm_num
    have hroot : ∀ i, (jacobi 1 ((3 : ℕ) : ℝ) (![-(3 / 5 : ℝ)] i)).value = 0 := by
      intro i
      fin_cases i
      simp [jacobi, jacobiPair]
      norm_num
    have hdeg : (X : ℝ[X]).natDegree ≤ 2 * 1 - 1 := by
      compute_degree
    exact ⟨_, hmem, hroot, (quadrature_exact (by decide) hz hmem hdeg).2 3 (by decide) hroot⟩

end Computed

end Cubature.Gauss
