import Cubature.Gauss.Rule
import Cubature.Proofs.Gauss.Polynomial
import Mathlib.Data.Nat.Choose.Vandermonde
import Mathlib.RingTheory.Polynomial.ShiftedLegendre

/-!
# Closed forms of the polynomials

The polynomials of the recurrences, as sums of binomial coefficients.

* `jacobiPolynomial_eval_eq_sum`: around the right end, in powers of `(x - 1) / 2` the differential
  equation gives each coefficient from the one before (`coeff_centred_succ`).
* `jacobiPolynomial_eq_expansion`: at both ends, Vandermonde's identity turns this sum into the one
  in products of powers of `(x - 1) / 2` and `(x + 1) / 2`. Without an exponent it is the Legendre
  polynomial (`legendreExpansion_eq`), in Rodrigues' form as well (`legendreExpansion_eq_shifted`).
* `jacobi_eq_expansion`, `legendre_eq_expansion`: the value and the slope of these sums are what is
  computed. Without an exponent both recurrences compute the same (`jacobi_zero`), and so does a
  search for a node (`jacobiNode_zero`).
-/

namespace Cubature.Gauss

open Polynomial Finset

/-! ## Around the right end -/

section Centred

variable {K : Type} [Field K] [LinearOrder K] [IsStrictOrderedRing K]

/-- The value at the right end. -/
theorem jacobiPolynomial_eval_one (a n : ℕ) :
    (jacobiPolynomial K a n).eval 1 = (n + a).choose n := by
  induction n with
  | zero => simp [jacobiPolynomial]
  | succ n ih =>
    -- At the end the derivative drops out.
    have hupper := (jacobi_structure (K := K) a n 1).1
    have hchoose := congrArg (Nat.cast (R := K)) (Nat.add_one_mul_choose_eq (n + a) n)
    have hc : (2 * (n + 1) * (n + 1) : K) ≠ 0 := by positivity
    push_cast at hchoose
    rw [ih] at hupper
    rw [show n + 1 + a = n + a + 1 by omega]
    apply mul_left_cancel₀ hc
    linear_combination hupper + 2 * (n + 1 : K) * hchoose

/-- The polynomial around the right end: as a function of `t`, where `x = 1 + 2 t`. -/
noncomputable def centred (K : Type) [Field K] (a n : ℕ) : K[X] :=
  (jacobiPolynomial K a n).comp (1 + 2 • X)

omit [LinearOrder K] [IsStrictOrderedRing K] in
theorem centred_eq (a n : ℕ) : centred K a n = (jacobiPolynomial K a n).comp (1 + 2 * X) := by
  rw [centred, nsmul_eq_mul, Nat.cast_ofNat]

/-- Jacobi's differential equation around the right end. -/
theorem centred_ode (a n : ℕ) :
    X * (X * derivative (derivative (centred K a n))) +
          X * derivative (derivative (centred K a n)) +
          C (a + 2 : K) * (X * derivative (centred K a n)) +
        C (a + 1 : K) * derivative (centred K a n) =
      C (n * (n + a + 1) : K) * centred K a n := by
  have hode := congrArg (fun p => p.comp (1 + 2 * X)) (jacobi_ode (K := K) a n)
  have hinner : derivative (1 + 2 * X : K[X]) = 2 := by simp
  have hone : derivative (centred K a n) =
      2 * (derivative (jacobiPolynomial K a n)).comp (1 + 2 * X) := by
    rw [centred_eq, derivative_comp, hinner]
  have htwo : derivative (derivative (centred K a n)) =
      4 * (derivative (derivative (jacobiPolynomial K a n))).comp (1 + 2 * X) := by
    rw [hone, derivative_mul, derivative_comp, hinner]
    simp
    ring
  simp only [sub_comp, add_comp, mul_comp, pow_comp, C_comp, X_comp, one_comp, zero_comp] at hode
  rw [htwo, hone, centred_eq]
  simp only [C_add, C_mul, C_1, show C (2 : K) = 2 from rfl] at hode ⊢
  linear_combination -hode

omit [LinearOrder K] [IsStrictOrderedRing K] in
theorem coeff_X_mul_derivative (p : K[X]) (m : ℕ) :
    (X * derivative p).coeff m = m * p.coeff m := by
  cases m with
  | zero => simp
  | succ m =>
    rw [coeff_X_mul, coeff_derivative]
    push_cast
    ring

/-- The differential equation gives each coefficient from the one before. -/
theorem coeff_centred_succ (a n m : ℕ) :
    (m + 1) * (m + 1 + a) * (centred K a n).coeff (m + 1) =
      (n - m) * (n + m + a + 1) * (centred K a n).coeff m := by
  have hode := congrArg (coeff · m) (centred_ode (K := K) a n)
  have hsquare : (X * (X * derivative (derivative (centred K a n)))).coeff m =
      m * (m - 1) * (centred K a n).coeff m := by
    have hsplit : X * (X * derivative (derivative (centred K a n))) =
        X * derivative (X * derivative (centred K a n)) - X * derivative (centred K a n) := by
      rw [derivative_mul, derivative_X]
      ring
    rw [hsplit, coeff_sub, coeff_X_mul_derivative, coeff_X_mul_derivative]
    ring
  simp only [coeff_add, coeff_C_mul, hsquare, coeff_X_mul_derivative, coeff_derivative] at hode
  linear_combination hode

theorem coeff_centred (a n m : ℕ) :
    (centred K a n).coeff m = n.choose m * (n + m + a).choose n := by
  induction m with
  | zero =>
    rw [coeff_zero_eq_eval_zero, centred_eq, eval_comp]
    simp [jacobiPolynomial_eval_one]
  | succ m ih =>
    have hstep := coeff_centred_succ (K := K) a n m
    have hc : ((m + 1) * (m + 1 + a) : K) ≠ 0 := by positivity
    have hlower : (n.choose (m + 1) * (m + 1) : K) = n.choose m * (n - m) := by
      rcases Nat.lt_or_ge n m with hlt | hle
      -- Past the degree both entries are zero, whatever the difference is.
      · rw [Nat.choose_eq_zero_of_lt hlt, Nat.choose_eq_zero_of_lt (by omega)]
        simp
      · rw [← Nat.cast_sub hle]
        exact_mod_cast Nat.choose_succ_right_eq n m
    have hupper : ((n + (m + 1) + a).choose n * (m + 1 + a) : K) =
        (n + m + a).choose n * (n + m + a + 1) := by
      have hnat := Nat.choose_mul_succ_eq (n + m + a) n
      rw [show n + m + a + 1 - n = m + 1 + a by omega] at hnat
      rw [show n + (m + 1) + a = n + m + a + 1 by omega]
      exact_mod_cast hnat.symm
    rw [ih] at hstep
    apply mul_left_cancel₀ hc
    rw [hstep]
    linear_combination -(n + m + a + 1 : K) * (n + m + a).choose n * hlower -
      (m + 1) * n.choose (m + 1) * hupper

theorem natDegree_one_add_two_mul_X : (1 + 2 * X : K[X]).natDegree = 1 := by
  compute_degree!

/-- The highest coefficient. -/
theorem topCoeff_mul_pow (a n : ℕ) :
    (jacobiPolynomial K a n).coeff n * 2 ^ n = (2 * n + a).choose n := by
  have hlead : (1 + 2 * X : K[X]).leadingCoeff = 2 := by
    rw [leadingCoeff, natDegree_one_add_two_mul_X]
    simp [coeff_one]
  have hcomp := coeff_comp_degree_mul_degree (p := jacobiPolynomial K a n) (q := 1 + 2 * X)
    (by rw [natDegree_one_add_two_mul_X]; exact one_ne_zero)
  rw [← centred_eq, hlead, leadingCoeff_jacobiPolynomial, natDegree_jacobiPolynomial,
    natDegree_one_add_two_mul_X, mul_one, coeff_centred, Nat.choose_self, Nat.cast_one, one_mul,
    ← two_mul] at hcomp
  exact hcomp.symm

/-- In powers of `(x - 1) / 2`. -/
theorem jacobiPolynomial_eval_eq_sum (a n : ℕ) (x : K) :
    (jacobiPolynomial K a n).eval x =
      ∑ m ∈ range (n + 1), n.choose m * (n + m + a).choose n * ((x - 1) / 2) ^ m := by
  have hdeg : (centred K a n).natDegree < n + 1 := by
    rw [centred_eq]
    refine Nat.lt_succ_of_le (natDegree_comp_le.trans ?_)
    rw [natDegree_one_add_two_mul_X, natDegree_jacobiPolynomial, mul_one]
  have hx : x = (1 + 2 * X : K[X]).eval ((x - 1) / 2) := by
    simp
    ring
  conv_lhs => rw [hx, ← eval_comp]
  rw [← centred_eq, eval_eq_sum_range' hdeg]
  exact sum_congr rfl fun m _ => by rw [coeff_centred]

end Centred

/-! ## At both ends -/

section Binomial

variable {R : Type} [CommRing R]

/-- The binomial theorem for a row of which each entry counts a choice of `s` more. -/
theorem sum_choose_mul_choose {s n : ℕ} (hs : s ≤ n) (t : R) :
    ∑ m ∈ range (n + 1), (n.choose m * m.choose s : R) * t ^ m =
      n.choose s * t ^ s * (t + 1) ^ (n - s) := by
  have hlow : ∑ m ∈ range s, (n.choose m * m.choose s : R) * t ^ m = 0 := by
    refine sum_eq_zero fun m hm => ?_
    rw [Nat.choose_eq_zero_of_lt (mem_range.mp hm)]
    simp
  have hterm (j : ℕ) : (n.choose (s + j) * (s + j).choose s : R) * t ^ (s + j) =
      n.choose s * t ^ s * (t ^ j * (n - s).choose j) := by
    have hnat := Nat.choose_mul (n := n) (Nat.le_add_right s j)
    rw [Nat.add_sub_cancel_left] at hnat
    rw [← Nat.cast_mul, hnat, pow_add]
    push_cast
    ring
  calc ∑ m ∈ range (n + 1), (n.choose m * m.choose s : R) * t ^ m
      = ∑ j ∈ range (n - s + 1), (n.choose (s + j) * (s + j).choose s : R) * t ^ (s + j) := by
        rw [show n + 1 = s + (n - s + 1) by omega, sum_range_add, hlow, zero_add]
    _ = n.choose s * t ^ s * (t + 1) ^ (n - s) := by
        simp only [hterm, ← mul_sum, add_pow, one_pow, mul_one]

/-- Vandermonde's identity turns one expansion into the other. -/
theorem sum_choose_mul_pow (a n : ℕ) (t : R) :
    ∑ s ∈ range (n + 1), ((n + a).choose (n - s) * n.choose s : R) * t ^ s * (t + 1) ^ (n - s) =
      ∑ m ∈ range (n + 1), n.choose m * (n + m + a).choose n * t ^ m := by
  have hvandermonde (m : ℕ) : ((n + m + a).choose n : R) =
      ∑ s ∈ range (n + 1), (m.choose s : R) * (n + a).choose (n - s) := by
    rw [show n + m + a = m + (n + a) by omega, Nat.add_choose_eq,
      Finset.Nat.sum_antidiagonal_eq_sum_range_succ fun i j => m.choose i * (n + a).choose j]
    push_cast
    rfl
  calc ∑ s ∈ range (n + 1), ((n + a).choose (n - s) * n.choose s : R) * t ^ s * (t + 1) ^ (n - s)
      = ∑ s ∈ range (n + 1), ∑ m ∈ range (n + 1),
          (n + a).choose (n - s) * ((n.choose m * m.choose s : R) * t ^ m) := by
        refine sum_congr rfl fun s hs => ?_
        rw [← mul_sum, sum_choose_mul_choose (Nat.lt_succ_iff.mp (mem_range.mp hs))]
        ring
    _ = ∑ m ∈ range (n + 1), ∑ s ∈ range (n + 1),
          (n + a).choose (n - s) * ((n.choose m * m.choose s : R) * t ^ m) := sum_comm
    _ = ∑ m ∈ range (n + 1), n.choose m * (n + m + a).choose n * t ^ m := by
        refine sum_congr rfl fun m _ => ?_
        rw [hvandermonde, mul_sum, sum_mul]
        exact sum_congr rfl fun s _ => by ring

end Binomial

section Expansion

/-- The sum over `s` of `C(n + a, n - s) C(n, s) ((x - 1) / 2) ^ s ((x + 1) / 2) ^ (n - s)`. -/
noncomputable def jacobiExpansion (K : Type) [Field K] (a n : ℕ) : K[X] :=
  ∑ s ∈ range (n + 1), C ((n + a).choose (n - s) * n.choose s : K) *
    (C (1 / (2 : ℕ) : K) * (X - 1)) ^ s * (C (1 / (2 : ℕ) : K) * (X + 1)) ^ (n - s)

/-- The sum over `k` of `C(n, k) ^ 2 (x - 1) ^ (n - k) (x + 1) ^ k`, divided by `2 ^ n`. -/
noncomputable def legendreExpansion (K : Type) [Field K] (n : ℕ) : K[X] :=
  C (1 / (2 : ℕ) ^ n : K) * ∑ k ∈ range (n + 1), C ((n.choose k : K) ^ 2) *
    (X - 1) ^ (n - k) * (X + 1) ^ k

theorem legendreExpansion_eq {K : Type} [Field K] (n : ℕ) :
    legendreExpansion K n = jacobiExpansion K 0 n := by
  rw [legendreExpansion, jacobiExpansion, ← sum_range_reflect, mul_sum, Nat.cast_ofNat]
  refine sum_congr rfl fun k hk => ?_
  have hle : k ≤ n := Nat.lt_succ_iff.mp (mem_range.mp hk)
  have hpow : (C (1 / 2 ^ n) : K[X]) = C (1 / 2) ^ k * C (1 / 2) ^ (n - k) := by
    rw [← pow_add, Nat.add_sub_cancel' hle, ← C_pow, div_pow, one_pow]
  rw [show n + 1 - 1 - k = n - k by omega, Nat.sub_sub_self hle, Nat.add_zero,
    Nat.choose_symm hle, hpow, mul_pow, mul_pow, sq]
  ring

variable {K : Type} [Field K] [LinearOrder K] [IsStrictOrderedRing K]

theorem jacobiPolynomial_eq_expansion (a n : ℕ) :
    jacobiPolynomial K a n = jacobiExpansion K a n := by
  refine Polynomial.funext fun x => ?_
  have hplus : (x - 1) / 2 + 1 = (x + 1) / 2 := by ring
  rw [jacobiPolynomial_eval_eq_sum, ← sum_choose_mul_pow, jacobiExpansion, eval_finsetSum, hplus]
  refine sum_congr rfl fun s _ => ?_
  simp only [eval_mul, eval_pow, eval_sub, eval_add, eval_C, eval_X, eval_one, one_div_mul_eq_div,
    Nat.cast_ofNat]

/-- Rodrigues' polynomials on `[0, 1]`, moved to `[-1, 1]`. -/
theorem legendreExpansion_eq_shifted (n : ℕ) :
    legendreExpansion K n =
      ((shiftedLegendre n).map (Int.castRingHom K)).comp (C (1 / 2) * (1 - X)) := by
  refine Polynomial.funext fun x => ?_
  rw [legendreExpansion_eq, ← jacobiPolynomial_eq_expansion, jacobiPolynomial_eval_eq_sum,
    eval_comp, shiftedLegendre, Polynomial.map_sum, eval_finsetSum]
  refine sum_congr rfl fun m _ => ?_
  have hneg : (x - 1) / 2 = -1 * (1 / 2 * (1 - x)) := by ring
  rw [hneg, mul_pow]
  simp
  ring

end Expansion

/-! ## What is computed -/

section Computed

open scoped Scalar.Exact

variable {K : Type} [Field K] [LinearOrder K] [IsStrictOrderedRing K] {n : ℕ}

/-- Without an exponent the recurrence is Legendre's. At the ends both slopes are quotients by
zero. -/
theorem jacobi_zero (hn : 1 ≤ n) (x : K) : jacobi n ((0 : ℕ) : K) x = legendre n x := by
  obtain ⟨m, rfl⟩ : ∃ m, n = m + 1 := ⟨n - 1, by omega⟩
  by_cases hx : x ^ 2 = 1
  · rw [sq] at hx
    simp only [jacobi, legendre, jacobiPair_eq_eval, legendrePair_eq_eval, hx,
      Scalar.Exact.ofNat_one, sub_self, mul_zero, div_zero]
  · rw [jacobi_eq_eval 0 m hx, legendre_eq_eval m hx]

/-- Without an exponent both searches from one start end at the same node, with the same weight,
whether they converge or not. -/
theorem jacobiNode_zero (hn : 1 ≤ n) (limits : Limits K) (start : K) :
    jacobiNode limits n ((0 : ℕ) : K) (Scalar.powerInt 2 1) start =
      legendreNode limits n start := by
  have hjet : jacobi n ((0 : ℕ) : K) = legendre n := funext (jacobi_zero hn)
  have hscale : Scalar.powerInt (2 : K) 1 = 2 := by
    simpa using Scalar.powerInt_natCast (2 : K) 1
  simp only [jacobiNode, legendreNode, jacobiWeight, legendreWeight, hjet, hscale]

/-- Everywhere but at the ends of the interval, the value and the slope that are computed are those
of the closed form of `P_n^(a,0)`. Without an exponent they are Legendre's, and a search for a
Jacobi node, with the scale of the weights that belongs to this exponent, is the search for a
Legendre node. -/
theorem jacobi_eq_expansion (hn : 1 ≤ n) :
    (∀ (a : ℕ) (x : K), x ^ 2 ≠ 1 → jacobi n (a : K) x =
      ⟨(jacobiExpansion K a n).eval x, (derivative (jacobiExpansion K a n)).eval x⟩) ∧
    (∀ x : K, jacobi n ((0 : ℕ) : K) x = legendre n x) ∧
    ∃ exponent, weightExponent 0 = .ok exponent ∧ ∀ (limits : Limits K) (start : K),
      jacobiNode limits n ((0 : ℕ) : K) (Scalar.powerInt 2 exponent) start =
        legendreNode limits n start := by
  refine ⟨fun a x hx => ?_, jacobi_zero hn, 1, rfl, jacobiNode_zero hn⟩
  obtain ⟨m, rfl⟩ : ∃ m, n = m + 1 := ⟨n - 1, by omega⟩
  rw [jacobi_eq_eval a m hx, jacobiPolynomial_eq_expansion]

/-- The cubic for `(1 - x) ^ 2` halfway to the right end, and the one without a weight. -/
theorem jacobi_eq_expansion_cubic :
    jacobi 3 ((2 : ℕ) : ℚ) (1 / 2) = ⟨11 / 16, 9⟩ ∧
      jacobi 3 ((0 : ℕ) : ℚ) (1 / 2) = legendre 3 (1 / 2) := by
  obtain ⟨hjet, hzero, -⟩ := jacobi_eq_expansion (K := ℚ) (n := 3) (by decide)
  refine ⟨?_, hzero _⟩
  rw [hjet 2 (1 / 2) (by norm_num)]
  simp [jacobiExpansion, sum_range_succ, Nat.choose, derivative_pow]
  norm_num

/-- Everywhere but at the ends of the interval, the value and the slope that are computed are those
of the closed form of `P_n`, which is Rodrigues' polynomial. -/
theorem legendre_eq_expansion (hn : 1 ≤ n) {x : K} (hx : x ^ 2 ≠ 1) :
    legendre n x =
        ⟨(legendreExpansion K n).eval x, (derivative (legendreExpansion K n)).eval x⟩ ∧
      legendreExpansion K n =
        ((shiftedLegendre n).map (Int.castRingHom K)).comp (C (1 / 2) * (1 - X)) := by
  obtain ⟨m, rfl⟩ : ∃ m, n = m + 1 := ⟨n - 1, by omega⟩
  refine ⟨?_, legendreExpansion_eq_shifted (m + 1)⟩
  rw [legendre_eq_eval m hx, legendreExpansion_eq, jacobiPolynomial_eq_expansion]

/-- The quartic to the right of the interval. -/
theorem legendre_eq_expansion_quartic : legendre 4 (2 : ℚ) = ⟨443 / 8, 125⟩ := by
  rw [(legendre_eq_expansion (K := ℚ) (n := 4) (by decide) (by norm_num)).1]
  simp [legendreExpansion, sum_range_succ, Nat.choose, derivative_pow]
  norm_num

end Computed

end Cubature.Gauss
