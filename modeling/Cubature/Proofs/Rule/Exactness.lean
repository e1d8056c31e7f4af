import Cubature.Proofs.Rule.Generate
import Cubature.Proofs.Rule.Sums

/-!
# Exactness of product rules

In exact arithmetic a product of one-dimensional rules is exact as far as these are: tensor
products in each variable by itself (`Rule.tensor_exact`), collapsed products in all variables
together (`Rule.simplex_exact`). Over the simplex the integral of a monomial is a quotient of
factorials; the three one-dimensional sums give three such quotients, in which all but that one
cancels.
-/

namespace Cubature

open Polynomial
open scoped Nat Scalar Scalar.Exact

/-- The product of the coordinates of a point, each raised to its own exponent. -/
def monomialAt {K : Type} [Field K] (exponents : List ℕ) (point : List K) : K :=
  (List.zipWith (· ^ ·) point exponents).prod

theorem monomialAt_zero {K : Type} [Field K] (point : List K) (count : ℕ) :
    monomialAt (List.replicate count 0) point = 1 := by
  induction count generalizing point with
  | zero => simp [monomialAt]
  | succ count ih =>
    cases point with
    | nil => simp [monomialAt]
    | cons x point => simpa [monomialAt, List.replicate_succ] using ih point

namespace Rule

variable {K : Type} [Field K] [LinearOrder K]

/-! ## Tensor products -/

section Tensor

variable {line : Rule K} {nodes : Gauss.Nodes K} {n degree a b c : ℕ}

section

variable (hx : line.locations = nodes.locations) (hw : line.weights = some nodes.weights)
  (h : nodes.ExactTo n 0 degree)

include hx hw h

theorem integrate_quadrilateral (ha : a ≤ degree) (hb : b ≤ degree) :
    (quadrilateral line).integrate (monomialAt [a, b]) =
      .ok (Gauss.interval K (X ^ a) * Gauss.interval K (X ^ b)) := by
  have hlists : (quadrilateral line).Lists (squareTable nodes.pairs) :=
    lists_quadrilateral (hx.trans (Gauss.Nodes.locations_eq_map h.length_eq))
      (by rw [weightList, hw, Option.getD_some, ← Gauss.Nodes.weights_eq_map h.length_eq])
  have hpoint : ∀ x y : K, monomialAt [a, b] [x, y] = x ^ a * y ^ b := by simp [monomialAt]
  rw [integrate_square hlists]
  simp only [hpoint, weightedSum_const_mul, weightedSum_mul_const]
  rw [h.sum_pow ha, h.sum_pow hb]

theorem integrate_hexahedron (ha : a ≤ degree) (hb : b ≤ degree) (hc : c ≤ degree) :
    (hexahedron line).integrate (monomialAt [a, b, c]) =
      .ok (Gauss.interval K (X ^ a) * Gauss.interval K (X ^ b) * Gauss.interval K (X ^ c)) := by
  have hlists : (hexahedron line).Lists (cubeTable nodes.pairs) :=
    lists_hexahedron (hx.trans (Gauss.Nodes.locations_eq_map h.length_eq))
      (by rw [weightList, hw, Option.getD_some, ← Gauss.Nodes.weights_eq_map h.length_eq])
  have hpoint : ∀ x y z : K, monomialAt [a, b, c] [x, y, z] = x ^ a * y ^ b * z ^ c := by
    simp [monomialAt, mul_assoc]
  rw [integrate_cube hlists]
  simp only [hpoint, weightedSum_const_mul, weightedSum_mul_const]
  rw [h.sum_pow ha, h.sum_pow hb, h.sum_pow hc]

end

/-- Tensor products are exact in each variable by itself. If the nodes and weights of a line rule
integrate all powers up to a degree over `[-1, 1]`, then the sum over the square rule made from it
is the integral of every monomial with both exponents up to that degree, and likewise over the cube.
In any field this is the product of the integrals of the factors; in a field inside the reals it is
the integral. -/
theorem tensor_exact (hx : line.locations = nodes.locations)
    (hw : line.weights = some nodes.weights) (h : nodes.ExactTo n 0 degree) :
    (∀ a b, a ≤ degree → b ≤ degree → ∃ v,
      (quadrilateral line).integrate (monomialAt [a, b]) = .ok v ∧
      v = Gauss.interval K (X ^ a) * Gauss.interval K (X ^ b) ∧
      ∀ toReal : K →+* ℝ,
        toReal v = ∫ x in (-1 : ℝ)..1, ∫ y in (-1 : ℝ)..1, x ^ a * y ^ b) ∧
    ∀ a b c, a ≤ degree → b ≤ degree → c ≤ degree → ∃ v,
      (hexahedron line).integrate (monomialAt [a, b, c]) = .ok v ∧
      v = Gauss.interval K (X ^ a) * Gauss.interval K (X ^ b) * Gauss.interval K (X ^ c) ∧
      ∀ toReal : K →+* ℝ, toReal v =
        ∫ x in (-1 : ℝ)..1, ∫ y in (-1 : ℝ)..1, ∫ z in (-1 : ℝ)..1, x ^ a * y ^ b * z ^ c := by
  constructor
  · intro a b ha hb
    refine ⟨_, integrate_quadrilateral hx hw h ha hb, rfl, fun toReal => ?_⟩
    exact Gauss.map_interval_square toReal a b
  · intro a b c ha hb hc
    refine ⟨_, integrate_hexahedron hx hw h ha hb hc, rfl, fun toReal => ?_⟩
    exact Gauss.map_interval_cube toReal a b c

/-- Simpson's rule. -/
def simpson : Gauss.Nodes ℚ := ⟨[-1, 0, 1], [1 / 3, 4 / 3, 1 / 3], []⟩

theorem exactTo_simpson : simpson.ExactTo 3 0 3 where
  length_locations := rfl
  length_weights := rfl
  moment_eq m hm := by
    rw [pow_zero, one_mul, Gauss.interval_X_pow]
    interval_cases m <;> norm_num [weightedSum, simpson, Gauss.Nodes.pairs]

/-- The square and the cube of Simpson's rule. -/
theorem tensor_exact_simpson :
    (quadrilateral (Rule.line 3 simpson)).integrate (monomialAt [2, 2]) = .ok (4 / 9) ∧
      (hexahedron (Rule.line 3 simpson)).integrate (monomialAt [2, 0, 3]) = .ok 0 := by
  have hnodes : (Rule.line 3 simpson).locations = simpson.locations := rfl
  obtain ⟨hsquare, hcube⟩ := tensor_exact hnodes rfl exactTo_simpson
  obtain ⟨_, hsum, rfl, -⟩ := hsquare 2 2 (by decide) (by decide)
  obtain ⟨_, hsum', rfl, -⟩ := hcube 2 0 3 (by decide) (by decide) (by decide)
  rw [hsum, hsum']
  norm_num [Gauss.interval_X_pow]

end Tensor

/-! ## Collapsed products -/

section Simplex

variable {order degree n alpha a b c : ℕ} {nodes s t r : Gauss.Nodes K}

theorem lists_onUnit (h : nodes.locations.length = nodes.weights.length) (a : ℕ) :
    (nodes.onUnit a).Lists (nodes.unitPairs a) := by
  constructor
  · rw [Gauss.Nodes.onUnit, Gauss.Nodes.locations_eq_map h]
    simp [Gauss.Nodes.unitPairs]
  · rw [Gauss.Nodes.onUnit, Gauss.Nodes.weights_eq_map h]
    simp [Gauss.Nodes.unitPairs]

theorem lists_triangle_onUnit (hs : s.ExactTo order 0 degree) (ht : t.ExactTo order 1 degree) :
    (triangle order (s.onUnit 0) (t.onUnit 1)).Lists
      (triangleTable (s.unitPairs 0) (t.unitPairs 1)) :=
  lists_triangle (lists_onUnit hs.length_eq 0) (lists_onUnit ht.length_eq 1)

theorem lists_tetrahedron_onUnit (hs : s.ExactTo order 0 degree) (ht : t.ExactTo order 1 degree)
    (hr : r.ExactTo order 2 degree) :
    (tetrahedron order (s.onUnit 0) (t.onUnit 1) (r.onUnit 2)).Lists
      (tetrahedronTable (s.unitPairs 0) (t.unitPairs 1) (r.unitPairs 2)) :=
  lists_tetrahedron (lists_onUnit hs.length_eq 0) (lists_onUnit ht.length_eq 1)
    (lists_onUnit hr.length_eq 2)

/-- The weights add up to the integral of the monomial without factors. -/
theorem Lists.sum_weightList {rule : Rule K} {table : List (List K × K)} (h : rule.Lists table)
    (count : ℕ) {v : K} (hv : rule.integrate (monomialAt (List.replicate count 0)) = .ok v) :
    rule.weightList.sum = v :=
  Except.ok.inj ((h.integrate_one fun p _ => monomialAt_zero p.1 count).symm.trans hv)

variable [IsStrictOrderedRing K]

theorem integrate_triangle_monomial (hs : s.ExactTo order 0 degree) (ht : t.ExactTo order 1 degree)
    (hab : a + b ≤ degree) :
    (triangle order (s.onUnit 0) (t.onUnit 1)).integrate (monomialAt [a, b]) =
      .ok (a ! * b ! / (a + b + 2)!) := by
  have hpoint : ∀ x y : K, monomialAt [a, b] [x * (1 - y), y] = (1 - y) ^ a * y ^ b * x ^ a := by
    intro x y
    simp [monomialAt, mul_pow]
    ring
  have hx := hs.sum_unit_pow (j := a) (by omega)
  have hy := ht.sum_unit hab
  have hfact : ((a + 1)! : K) ≠ 0 := by exact_mod_cast Nat.factorial_ne_zero _
  rw [integrate_triangle (lists_triangle_onUnit hs ht)]
  simp only [hpoint, weightedSum_const_mul, weightedSum_mul_const]
  rw [hx, hy]
  congr 1
  field_simp

theorem integrate_tetrahedron_monomial (hs : s.ExactTo order 0 degree)
    (ht : t.ExactTo order 1 degree) (hr : r.ExactTo order 2 degree) (habc : a + b + c ≤ degree) :
    (tetrahedron order (s.onUnit 0) (t.onUnit 1) (r.onUnit 2)).integrate (monomialAt [a, b, c]) =
      .ok (a ! * b ! * c ! / (a + b + c + 3)!) := by
  have hpoint : ∀ x y z : K,
      monomialAt [a, b, c] [x * (1 - y) * (1 - z), y * (1 - z), z] =
        (1 - z) ^ (a + b) * z ^ c * ((1 - y) ^ a * y ^ b * x ^ a) := by
    intro x y z
    simp [monomialAt, mul_pow, pow_add]
    ring
  have hab : a + b ≤ degree := by omega
  have hx := hs.sum_unit_pow (j := a) (by omega)
  have hy := ht.sum_unit hab
  have hz := hr.sum_unit habc
  have hfact : ((a + 1)! : K) ≠ 0 := by exact_mod_cast Nat.factorial_ne_zero _
  have hfact' : ((a + b + 2)! : K) ≠ 0 := by exact_mod_cast Nat.factorial_ne_zero _
  rw [integrate_tetrahedron (lists_tetrahedron_onUnit hs ht hr)]
  simp only [hpoint, weightedSum_const_mul, weightedSum_mul_const]
  rw [hx, hy, hz]
  congr 1
  field_simp

theorem sum_weights_triangle (hs : s.ExactTo order 0 degree) (ht : t.ExactTo order 1 degree) :
    (triangle order (s.onUnit 0) (t.onUnit 1)).weightList.sum = 1 / 2 := by
  have h := integrate_triangle_monomial hs ht (a := 0) (b := 0) (Nat.zero_le _)
  rw [(lists_triangle_onUnit hs ht).sum_weightList 2 h]
  norm_num [Nat.factorial]

theorem sum_weights_tetrahedron (hs : s.ExactTo order 0 degree) (ht : t.ExactTo order 1 degree)
    (hr : r.ExactTo order 2 degree) :
    (tetrahedron order (s.onUnit 0) (t.onUnit 1) (r.onUnit 2)).weightList.sum = 1 / 6 := by
  have h := integrate_tetrahedron_monomial hs ht hr (a := 0) (b := 0) (c := 0) (Nat.zero_le _)
  rw [(lists_tetrahedron_onUnit hs ht hr).sum_weightList 3 h]
  norm_num [Nat.factorial]

/-- Collapsed products are exact in all variables together. If the one-dimensional rules for
`(1 - x) ^ alpha` with `alpha = 0, 1, 2` integrate all powers up to `2 order - 1`, then the triangle
and the tetrahedron rule are made from them, integrate every monomial of a total degree up to
`2 order - 1`, and have weights that add up to the area and the volume. Where the one-dimensional
rules come from is left open: `Gauss.rule start limits order` is one choice of `oneDim`, and rules
with their nodes at the roots of the polynomials are exact at every order. -/
theorem simplex_exact {oneDim : UInt32 → Except Failure (Gauss.Nodes K)}
    (hs : oneDim 0 = .ok s) (ht : oneDim 1 = .ok t) (hr : oneDim 2 = .ok r)
    (exact_s : s.ExactTo order 0 (2 * order - 1)) (exact_t : t.ExactTo order 1 (2 * order - 1))
    (exact_r : r.ExactTo order 2 (2 * order - 1)) :
    (∃ rule, generate oneDim .triangle order = .ok rule ∧
      (∀ a b, a + b ≤ 2 * order - 1 →
        rule.integrate (monomialAt [a, b]) = .ok (a ! * b ! / (a + b + 2)!)) ∧
      rule.weightList.sum = 1 / 2) ∧
    ∃ rule, generate oneDim .tetrahedron order = .ok rule ∧
      (∀ a b c, a + b + c ≤ 2 * order - 1 →
        rule.integrate (monomialAt [a, b, c]) = .ok (a ! * b ! * c ! / (a + b + c + 3)!)) ∧
      rule.weightList.sum = 1 / 6 := by
  refine ⟨⟨triangle order (s.onUnit 0) (t.onUnit 1), ?_,
      fun _ _ => integrate_triangle_monomial exact_s exact_t, sum_weights_triangle exact_s exact_t⟩,
    ⟨tetrahedron order (s.onUnit 0) (t.onUnit 1) (r.onUnit 2), ?_,
      fun _ _ _ => integrate_tetrahedron_monomial exact_s exact_t exact_r,
      sum_weights_tetrahedron exact_s exact_t exact_r⟩⟩
  · rw [generate, hs, ht]
    rfl
  · rw [generate, hs, ht, hr]
    rfl

/-- The rules of two points with their nodes at the roots. -/
noncomputable def twoPoint (alpha : UInt32) : Except Failure (Gauss.Nodes ℝ) :=
  .ok (Gauss.twoPoint alpha.toNat)

/-- The rules of order two over the triangle and the tetrahedron, on cubic monomials. -/
theorem simplex_exact_two_points :
    (∃ rule, generate twoPoint .triangle 2 = .ok rule ∧
      rule.integrate (monomialAt [1, 2]) = .ok (1 / 60) ∧ rule.weightList.sum = 1 / 2) ∧
    ∃ rule, generate twoPoint .tetrahedron 2 = .ok rule ∧
      rule.integrate (monomialAt [1, 1, 1]) = .ok (1 / 720) ∧ rule.weightList.sum = 1 / 6 := by
  have hs : twoPoint 0 = .ok (Gauss.twoPoint 0) := rfl
  have ht : twoPoint 1 = .ok (Gauss.twoPoint 1) := rfl
  have hr : twoPoint 2 = .ok (Gauss.twoPoint 2) := rfl
  obtain ⟨⟨triangle, htriangle, hsum, harea⟩, ⟨tetrahedron, htetrahedron, hsum', hvolume⟩⟩ :=
    simplex_exact hs ht hr (Gauss.exactTo_twoPoint 0) (Gauss.exactTo_twoPoint 1)
      (Gauss.exactTo_twoPoint 2)
  refine ⟨⟨triangle, htriangle, ?_, harea⟩, ⟨tetrahedron, htetrahedron, ?_, hvolume⟩⟩
  · rw [hsum 1 2 (by decide)]
    norm_num [Nat.factorial]
  · rw [hsum' 1 1 1 (by decide)]
    norm_num [Nat.factorial]

end Simplex

end Rule

end Cubature
