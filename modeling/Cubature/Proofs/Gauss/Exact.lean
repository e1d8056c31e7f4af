import Cubature.Proofs.Gauss.Interval
import Cubature.Proofs.Gauss.Quadrature
import Cubature.Rule.Product

/-!
# Exact rules on the line

`Gauss.Nodes.ExactTo nodes n alpha degree`: a one-dimensional rule of `n` points that integrates
`(1 - x) ^ alpha` times every power up to a degree, in exact arithmetic.

* `ExactTo.sum_eval`, `ExactTo.sum_unit`: it integrates polynomials, and on `[0, 1]` it gives
  Euler's beta integral.
* `exactTo_legendre_roots`, `exactTo_jacobi_roots`: rules with their nodes at the roots are exact.
  So is the rule of two points with its nodes by a formula (`exactTo_twoPoint`), and the rule of one
  point in any field (`exactTo_onePoint`).
-/

namespace Cubature

open Polynomial
open scoped Nat Scalar Scalar.Exact

/-! ## Weighted sums -/

section Sums

variable {K : Type} [Field K]

/-- The weighted sum of a function over the nodes of a one-dimensional rule. -/
def weightedSum (l : List (K × K)) (f : K → K) : K := (l.map fun p => f p.1 * p.2).sum

theorem weightedSum_add (l : List (K × K)) (f g : K → K) :
    weightedSum l (fun x => f x + g x) = weightedSum l f + weightedSum l g := by
  simp only [weightedSum, add_mul, List.sum_map_add]

theorem weightedSum_const_mul (l : List (K × K)) (c : K) (f : K → K) :
    weightedSum l (fun x => c * f x) = c * weightedSum l f := by
  simp only [weightedSum, mul_assoc, List.sum_map_mul_left]

theorem weightedSum_mul_const (l : List (K × K)) (c : K) (f : K → K) :
    weightedSum l (fun x => f x * c) = weightedSum l f * c := by
  simp only [mul_comm _ c, weightedSum_const_mul]

end Sums

/-! ## Exactness -/

namespace Gauss

namespace Nodes

/-- The nodes, each with its weight. -/
def pairs {α : Type} (nodes : Nodes α) : List (α × α) := nodes.locations.zip nodes.weights

section Pairs

variable {α : Type} {nodes : Nodes α} (h : nodes.locations.length = nodes.weights.length)

include h

theorem locations_eq_map : nodes.locations = nodes.pairs.map Prod.fst :=
  (List.map_fst_zip (Nat.le_of_eq h)).symm

theorem weights_eq_map : nodes.weights = nodes.pairs.map Prod.snd :=
  (List.map_snd_zip (Nat.le_of_eq h.symm)).symm

theorem length_pairs : nodes.pairs.length = nodes.locations.length := by
  rw [locations_eq_map h, List.length_map]

end Pairs

section Exact

variable {K : Type} [Field K] {nodes : Nodes K} {n alpha degree : ℕ}

/-- A rule of `n` nodes and weights that integrates `(1 - x) ^ alpha x ^ m` over `[-1, 1]` for every
power up to a degree. -/
structure ExactTo (nodes : Nodes K) (n alpha degree : ℕ) : Prop where
  length_locations : nodes.locations.length = n
  length_weights : nodes.weights.length = n
  moment_eq : ∀ m ≤ degree,
    weightedSum nodes.pairs (· ^ m) = interval K ((1 - X) ^ alpha * X ^ m)

theorem ExactTo.length_eq (h : nodes.ExactTo n alpha degree) :
    nodes.locations.length = nodes.weights.length :=
  h.length_locations.trans h.length_weights.symm

theorem ExactTo.sum_pow {m : ℕ} (h : nodes.ExactTo n 0 degree) (hm : m ≤ degree) :
    weightedSum nodes.pairs (· ^ m) = interval K (X ^ m) := by
  rw [h.moment_eq m hm, pow_zero, one_mul]

/-- By linearity it integrates every polynomial up to the degree. -/
theorem ExactTo.sum_eval (h : nodes.ExactTo n alpha degree) (p : K[X]) (hp : p.natDegree ≤ degree) :
    weightedSum nodes.pairs (fun x => p.eval x) = interval K ((1 - X) ^ alpha * p) := by
  refine induction_with_natDegree_le
    (fun p => weightedSum nodes.pairs (fun x => p.eval x) = interval K ((1 - X) ^ alpha * p))
    degree ?_ (fun m c _ hm => ?_) (fun p q _ _ hp hq => ?_) p hp
  · simp [weightedSum]
  · simp only [eval_mul, eval_C, eval_pow, eval_X]
    rw [weightedSum_const_mul, h.moment_eq m hm, mul_left_comm, interval_C_mul]
  · simp only [eval_add]
    rw [weightedSum_add, hp, hq, mul_add, map_add]

end Exact

/-! ## On `[0, 1]` -/

section Unit

/-- The nodes and weights after a rule is moved to `[0, 1]`. -/
def unitPairs {α : Type} [Scalar α] (nodes : Nodes α) (alpha : ℕ) : List (α × α) :=
  nodes.pairs.map fun p => (1 / 2 * (1 + p.1), p.2 * Scalar.powerInt (1 / 2) ((alpha : ℤ) + 1))

variable {K : Type} [Field K] [LinearOrder K] {nodes : Nodes K} {n alpha degree : ℕ}

/-- The factor of the weights on `[0, 1]` is a power of one half. -/
theorem powerInt_half (alpha : ℕ) :
    Scalar.powerInt (@OfNat.ofNat K 1 Scalar.instOfNat / 2) ((alpha : ℤ) + 1) =
      (1 / 2) ^ (alpha + 1) := by
  rw [← Nat.cast_succ, Scalar.powerInt_natCast, Scalar.Exact.ofNat_one]

/-- The sum over a rule on `[0, 1]`. -/
theorem weightedSum_unitPairs (nodes : Nodes K) (alpha : ℕ) (f : K → K) :
    weightedSum (nodes.unitPairs alpha) f =
      (1 / 2) ^ (alpha + 1) * weightedSum nodes.pairs fun x => f (1 / 2 * (1 + x)) := by
  rw [unitPairs, weightedSum, List.map_map, powerInt_half, ← weightedSum_const_mul, weightedSum]
  congr 1
  refine List.map_congr_left fun p _ => ?_
  simp only [Function.comp_apply, Scalar.Exact.ofNat_one]
  ring

variable [IsStrictOrderedRing K]

/-- On `[0, 1]` the rule integrates `(1 - t) ^ alpha` times `(1 - t) ^ i t ^ j`. The change of
variable turns both factors into halves of `1 - x` and `1 + x`. -/
theorem ExactTo.sum_unit (h : nodes.ExactTo n alpha degree) {i j : ℕ} (hij : i + j ≤ degree) :
    weightedSum (nodes.unitPairs alpha) (fun t => (1 - t) ^ i * t ^ j) =
      (i + alpha)! * j ! / (i + j + alpha + 1)! := by
  have hdeg : ((1 - X : K[X]) ^ i * (1 + X) ^ j).natDegree ≤ degree := by
    refine le_trans ?_ hij
    compute_degree
  have hterm : ∀ x : K, (1 - 1 / 2 * (1 + x)) ^ i * (1 / 2 * (1 + x)) ^ j =
      (1 / 2) ^ (i + j) * ((1 - X : K[X]) ^ i * (1 + X) ^ j).eval x := by
    intro x
    simp only [eval_mul, eval_pow, eval_sub, eval_add, eval_one, eval_X]
    rw [show 1 - 1 / 2 * (1 + x) = 1 / 2 * (1 - x) by ring, mul_pow, mul_pow, pow_add]
    ring
  have horder : i + j + alpha + 1 = i + alpha + j + 1 := by ring
  calc weightedSum (nodes.unitPairs alpha) (fun t => (1 - t) ^ i * t ^ j)
      = (1 / 2) ^ (alpha + 1) * ((1 / 2) ^ (i + j) *
          interval K ((1 - X) ^ alpha * ((1 - X) ^ i * (1 + X) ^ j))) := by
        rw [weightedSum_unitPairs]
        simp only [hterm]
        rw [weightedSum_const_mul, h.sum_eval _ hdeg]
    _ = (1 / 2) ^ (i + j + alpha + 1) * interval K ((1 - X) ^ (i + alpha) * (1 + X) ^ j) := by
        rw [← mul_assoc ((1 - X) ^ alpha), ← pow_add, add_comm alpha i, ← mul_assoc, ← pow_add]
        congr 2
        ring
    _ = (i + alpha)! * j ! / (i + j + alpha + 1)! := by
        rw [horder, half_pow_mul_interval]

theorem ExactTo.sum_unit_pow (h : nodes.ExactTo n 0 degree) {j : ℕ} (hj : j ≤ degree) :
    weightedSum (nodes.unitPairs 0) (· ^ j) = j ! / (j + 1)! := by
  have := h.sum_unit (i := 0) (j := j) (by omega)
  simpa using this

end Unit

end Nodes

/-! ## Rules that are exact -/

section Roots

variable {n alpha degree : ℕ} {z w : Fin n → ℝ}

/-- A sum that integrates polynomials, as a rule. -/
theorem exactTo_of_quadrature (stalled : List ℕ) (h : ∀ p : ℝ[X], p.natDegree ≤ degree →
    ∑ i, w i * p.eval (z i) = weighted alpha p) :
    (⟨List.ofFn z, List.ofFn w, stalled⟩ : Nodes ℝ).ExactTo n alpha degree where
  length_locations := List.length_ofFn
  length_weights := List.length_ofFn
  moment_eq m hm := by
    have hzip : (List.ofFn z).zip (List.ofFn w) = List.ofFn fun i => (z i, w i) := by
      apply List.ext_getElem <;> simp
    have hsum := h (X ^ m) ((natDegree_X_pow m).le.trans hm)
    rw [← weighted_eq_interval, ← hsum, weightedSum, Nodes.pairs, hzip, List.map_ofFn,
      List.sum_ofFn]
    simp [mul_comm]

variable (hn : 1 ≤ n) (hz : Function.Injective z) (hmem : ∀ i, z i ∈ Set.Ioo (-1 : ℝ) 1)

include hn hz hmem

/-- The rule with the computed weights at `n` roots of the Legendre polynomial. -/
theorem exactTo_legendre_roots (hroot : ∀ i, (legendre n (z i)).value = 0) (stalled : List ℕ) :
    (⟨List.ofFn z, List.ofFn fun i => legendreWeight n (z i), stalled⟩ : Nodes ℝ).ExactTo n 0
      (2 * n - 1) :=
  exactTo_of_quadrature stalled fun _ hp => legendre_quadrature hn hz hmem hroot hp

/-- The rule with the computed weights at `n` roots of the Jacobi polynomial. -/
theorem exactTo_jacobi_roots (hroot : ∀ i, (jacobi n (alpha : ℝ) (z i)).value = 0)
    (stalled : List ℕ) :
    (⟨List.ofFn z, List.ofFn fun i =>
        jacobiWeight n (alpha : ℝ) (Scalar.powerInt 2 (alpha + 1)) (z i),
      stalled⟩ : Nodes ℝ).ExactTo n alpha (2 * n - 1) :=
  exactTo_of_quadrature stalled fun _ hp => jacobi_quadrature hn hz hmem hroot hp

end Roots

/-! ### Two points -/

section TwoPoint

variable (a : ℕ) (i : Fin 2)

/-- The roots of the quadratic Jacobi polynomial. -/
noncomputable def twoRoots (a : ℕ) : Fin 2 → ℝ :=
  ![(-a - 2 * √(2 * (a + 2) / (a + 3))) / (a + 4), (-a + 2 * √(2 * (a + 2) / (a + 3))) / (a + 4)]

theorem sqrt_twoRoots :
    0 < √(2 * (a + 2) / (a + 3) : ℝ) ∧ √(2 * (a + 2) / (a + 3) : ℝ) < 2 := by
  refine ⟨by positivity, (Real.sqrt_lt' two_pos).mpr ?_⟩
  rw [div_lt_iff₀ (by positivity)]
  linarith [(Nat.cast_nonneg a : (0 : ℝ) ≤ a)]

theorem twoRoots_injective : Function.Injective (twoRoots a) := by
  have hpos := (sqrt_twoRoots a).1
  have hlt : twoRoots a 0 < twoRoots a 1 := by
    show (_ : ℝ) / _ < _ / _
    gcongr
    linarith
  intro i j h
  fin_cases i <;> fin_cases j
  · rfl
  · exact absurd h hlt.ne
  · exact absurd h hlt.ne'
  · rfl

theorem twoRoots_mem : twoRoots a i ∈ Set.Ioo (-1 : ℝ) 1 := by
  obtain ⟨hpos, hlt⟩ := sqrt_twoRoots a
  have hden : (0 : ℝ) < a + 4 := by positivity
  have ha : (0 : ℝ) ≤ a := Nat.cast_nonneg a
  fin_cases i <;> constructor <;>
    simp only [twoRoots, Fin.zero_eta, Fin.mk_one, Matrix.cons_val_zero, Matrix.cons_val_one,
      lt_div_iff₀ hden, div_lt_iff₀ hden] <;>
    linarith

/-- The quadratic equation, with the square completed. -/
theorem twoRoots_sq : (a + 3) * ((a + 4) * twoRoots a i + a) ^ 2 = 8 * (a + 2) := by
  have hden : (a + 4 : ℝ) ≠ 0 := by positivity
  have hden' : (a + 3 : ℝ) ≠ 0 := by positivity
  have hsquare : √(2 * (a + 2) / (a + 3) : ℝ) ^ 2 = 2 * (a + 2) / (a + 3) :=
    Real.sq_sqrt (by positivity)
  have hroot : ((a + 4) * twoRoots a i + a) ^ 2 = 4 * √(2 * (a + 2) / (a + 3) : ℝ) ^ 2 := by
    fin_cases i <;> simp [twoRoots, mul_div_cancel₀ _ hden] <;> ring
  rw [hroot, hsquare]
  field_simp
  ring

theorem legendre_twoRoots : (legendre 2 (twoRoots 0 i)).value = 0 := by
  have h := twoRoots_sq 0 i
  simp only [legendre, legendrePair, Scalar.Exact.ofNat_one]
  push_cast at h ⊢
  linear_combination h / 32

theorem jacobi_twoRoots : (jacobi 2 (a : ℝ) (twoRoots a i)).value = 0 := by
  have h := twoRoots_sq a i
  have hden : (a + 4 : ℝ) ≠ 0 := by positivity
  simp only [jacobi, jacobiPair, Scalar.Exact.ofNat_one]
  push_cast
  refine div_eq_zero_iff.mpr (.inl (mul_left_cancel₀ hden ?_))
  linear_combination (a + 2) ^ 2 / 2 * h

/-- The rule of two points for `(1 - x) ^ a`. -/
noncomputable def twoPoint (a : ℕ) : Nodes ℝ where
  locations := List.ofFn (twoRoots a)
  weights := List.ofFn fun i =>
    if a = 0 then legendreWeight 2 (twoRoots a i)
    else jacobiWeight 2 (a : ℝ) (Scalar.powerInt 2 (a + 1)) (twoRoots a i)
  stalled := []

theorem exactTo_twoPoint : (twoPoint a).ExactTo 2 a 3 := by
  unfold twoPoint
  split
  · rename_i hzero
    subst hzero
    exact exactTo_legendre_roots (by decide) (twoRoots_injective 0) (twoRoots_mem 0)
      legendre_twoRoots []
  · exact exactTo_jacobi_roots (by decide) (twoRoots_injective a) (twoRoots_mem a)
      (jacobi_twoRoots a) []

end TwoPoint

/-! ### One point -/

/-- The one-point rule for `(1 - x) ^ a` that is exact for linear functions. -/
theorem exactTo_onePoint {K : Type} [Field K] [CharZero K] {nodes : Nodes K} (a : ℕ)
    (hx : nodes.locations = [-(a : K) / (a + 2)])
    (hw : nodes.weights = [(2 : K) ^ (a + 1) / (a + 1)]) : nodes.ExactTo 1 a 1 where
  length_locations := by rw [hx]; rfl
  length_weights := by rw [hw]; rfl
  moment_eq m hm := by
    have hone : (a + 1 : K) ≠ 0 := Nat.cast_add_one_ne_zero a
    have htwo : (a + 2 : K) ≠ 0 := by exact_mod_cast Nat.succ_ne_zero (a + 1)
    have hpairs : nodes.pairs = [(-(a : K) / (a + 2), (2 : K) ^ (a + 1) / (a + 1))] := by
      rw [Nodes.pairs, hx, hw]
      rfl
    interval_cases m
    · simp [weightedSum, hpairs, interval_one_sub_pow]
    · have hsplit : (1 - X : K[X]) ^ a * X ^ 1 = (1 - X) ^ a - (1 - X) ^ (a + 1) := by ring
      have hsum : (a + 1 : ℕ) + (1 : K) = a + 2 := by
        push_cast
        ring
      rw [hsplit, map_sub, interval_one_sub_pow, interval_one_sub_pow, hsum]
      simp [weightedSum, hpairs]
      field_simp
      ring

end Gauss

end Cubature
