import Cubature.Proofs.Rule.Exactness
import Mathlib.Algebra.MvPolynomial.Eval

/-!
# Integrals over reference elements

The cube and the simplex are integrated over coordinate by coordinate (`cubeIntegral`,
`simplexIntegral`), and the reference element of each kind is one of them (`Kind.integral`).

Integrals and weighted sums are both linear on polynomials (`LinearOnMonomials`), so two of them
that agree on the monomials of a polynomial agree on the polynomial. Of a monomial the integral is a
product over the cube (`cubeIntegral_monomialAt`) and a quotient of factorials over the simplex
(`simplexIntegral_monomialAt`).
-/

namespace Cubature

open Polynomial
open scoped Nat Scalar.Exact

/-! ## Reference elements -/

/-- The integral over `[-1, 1]` in each of `d` coordinates. -/
noncomputable def cubeIntegral : ℕ → (List ℝ → ℝ) → ℝ
  | 0, f => f []
  | d + 1, f => ∫ x in (-1 : ℝ)..1, cubeIntegral d fun point => f (x :: point)

/-- The integral over all `d` coordinates that are not negative and add up to at most `size`. -/
noncomputable def simplexIntegral : ℕ → ℝ → (List ℝ → ℝ) → ℝ
  | 0, _, f => f []
  | d + 1, size, f =>
    ∫ x in (0 : ℝ)..size, simplexIntegral d (size - x) fun point => f (x :: point)

/-- The integral over the reference element of a kind. -/
noncomputable def Kind.integral : Kind → (List ℝ → ℝ) → ℝ
  | .arbitrary => fun _ => 0
  | .line => cubeIntegral 1
  | .quadrilateral => cubeIntegral 2
  | .hexahedron => cubeIntegral 3
  | .triangle => simplexIntegral 2 1
  | .tetrahedron => simplexIntegral 3 1

/-! ## Polynomials in the coordinates -/

/-- The value of a polynomial at a point. -/
noncomputable def valueAt {d : ℕ} (q : MvPolynomial (Fin d) ℝ) (point : List ℝ) : ℝ :=
  MvPolynomial.eval (fun i : Fin d => point.getD i 0) q

theorem monomialAt_cons {K : Type} [Field K] (e : ℕ) (exponents : List ℕ) (x : K)
    (point : List K) :
    monomialAt (e :: exponents) (x :: point) = x ^ e * monomialAt exponents point := by
  simp [monomialAt]

theorem monomialAt_ofFn {K : Type} [Field K] {d : ℕ} (e : Fin d → ℕ) (x : Fin d → K) :
    monomialAt (List.ofFn e) (List.ofFn x) = ∏ i, x i ^ e i := by
  induction d with
  | zero => simp [monomialAt]
  | succ d ih => rw [List.ofFn_succ, List.ofFn_succ, monomialAt_cons, ih, Fin.prod_univ_succ]

/-- A polynomial is the sum of its terms. -/
theorem valueAt_eq_sum {d : ℕ} (q : MvPolynomial (Fin d) ℝ) {point : List ℝ}
    (h : point.length = d) :
    valueAt q point = ∑ m ∈ q.support, q.coeff m * monomialAt (List.ofFn m) point := by
  obtain ⟨x, rfl⟩ : ∃ x : Fin d → ℝ, point = List.ofFn x := by
    subst h
    exact ⟨point.get, (List.ofFn_get point).symm⟩
  have hx : (fun i : Fin d => (List.ofFn x).getD i 0) = x := by
    funext i
    simp [List.getD_eq_getElem?_getD]
  rw [valueAt, hx, MvPolynomial.eval_eq']
  exact Finset.sum_congr rfl fun m _ => by rw [monomialAt_ofFn]

/-- A form on functions of points with `d` coordinates that is linear on monomials. -/
structure LinearOnMonomials (d : ℕ) (form : (List ℝ → ℝ) → ℝ) : Prop where
  congr : ∀ f g, (∀ point, point.length = d → f point = g point) → form f = form g
  sum : ∀ (s : Finset (Fin d →₀ ℕ)) (c : (Fin d →₀ ℕ) → ℝ),
    form (fun point => ∑ m ∈ s, c m * monomialAt (List.ofFn m) point) =
      ∑ m ∈ s, c m * form (monomialAt (List.ofFn m))

namespace LinearOnMonomials

variable {d : ℕ} {form form' : (List ℝ → ℝ) → ℝ}

theorem valueAt_eq (h : LinearOnMonomials d form) (q : MvPolynomial (Fin d) ℝ) :
    form (valueAt q) = ∑ m ∈ q.support, q.coeff m * form (monomialAt (List.ofFn m)) := by
  rw [h.congr _ _ fun point hpoint => valueAt_eq_sum q hpoint, h.sum]

theorem valueAt_monomial (h : LinearOnMonomials d form) (m : Fin d →₀ ℕ) {c : ℝ} (hc : c ≠ 0) :
    form (valueAt (MvPolynomial.monomial m c)) = c * form (monomialAt (List.ofFn m)) := by
  classical
  rw [h.valueAt_eq, MvPolynomial.support_monomial, if_neg hc, Finset.sum_singleton,
    MvPolynomial.coeff_monomial, if_pos rfl]

/-- Two forms agree on a polynomial if they agree on its monomials. -/
theorem eq_of_monomials (h : LinearOnMonomials d form) (h' : LinearOnMonomials d form')
    {q : MvPolynomial (Fin d) ℝ} (heq : ∀ m ∈ q.support,
      form (monomialAt (List.ofFn m)) = form' (monomialAt (List.ofFn m))) :
    form (valueAt q) = form' (valueAt q) := by
  rw [h.valueAt_eq, h'.valueAt_eq]
  exact Finset.sum_congr rfl fun m hm => by rw [heq m hm]

end LinearOnMonomials

/-! ## Rules -/

/-- The sum over points with weights. -/
def tableSum (table : List (List ℝ × ℝ)) (f : List ℝ → ℝ) : ℝ :=
  (table.map fun p => f p.1 * p.2).sum

theorem Rule.Lists.integrate_eq_tableSum {rule : Rule ℝ} {table : List (List ℝ × ℝ)}
    (h : rule.Lists table) (f : List ℝ → ℝ) : rule.integrate f = .ok (tableSum table f) := by
  rw [h.integrate_eq, Scalar.sum_eq_sum, tableSum]

theorem tableSum_sum {ι : Type} (table : List (List ℝ × ℝ)) (s : Finset ι) (c : ι → ℝ)
    (f : ι → List ℝ → ℝ) :
    tableSum table (fun point => ∑ m ∈ s, c m * f m point) =
      ∑ m ∈ s, c m * tableSum table (f m) := by
  induction table with
  | nil => simp [tableSum]
  | cons p table ih =>
    simp only [tableSum, List.map_cons, List.sum_cons] at ih ⊢
    rw [ih, Finset.sum_mul, ← Finset.sum_add_distrib]
    exact Finset.sum_congr rfl fun m _ => by ring

theorem linear_tableSum {d : ℕ} {table : List (List ℝ × ℝ)} (h : ∀ p ∈ table, p.1.length = d) :
    LinearOnMonomials d (tableSum table) where
  congr f g hfg := by
    have hterms : (table.map fun p => f p.1 * p.2) = table.map fun p => g p.1 * p.2 :=
      List.map_congr_left fun p hp => by rw [hfg p.1 (h p hp)]
    rw [tableSum, tableSum, hterms]
  sum s c := tableSum_sum table s c _

/-! ## The cube -/

theorem cubeIntegral_congr {d : ℕ} {f g : List ℝ → ℝ}
    (h : ∀ point, point.length = d → f point = g point) :
    cubeIntegral d f = cubeIntegral d g := by
  induction d generalizing f g with
  | zero => exact h [] rfl
  | succ d ih =>
    refine intervalIntegral.integral_congr fun x _ => ih fun point hpoint => ?_
    exact h (x :: point) (congrArg (· + 1) hpoint)

theorem integral_pow_eq_interval (m : ℕ) :
    ∫ x in (-1 : ℝ)..1, x ^ m = Gauss.interval ℝ (X ^ m) :=
  (Gauss.map_interval_X_pow (RingHom.id ℝ) m).symm

/-- A sum of monomials over the cube. The first coordinate becomes part of the coefficients. -/
theorem cubeIntegral_sum {ι : Type} {d : ℕ} (s : Finset ι) (c : ι → ℝ) (e : ι → Fin d → ℕ) :
    cubeIntegral d (fun point => ∑ m ∈ s, c m * monomialAt (List.ofFn (e m)) point) =
      ∑ m ∈ s, c m * ∏ i, Gauss.interval ℝ (X ^ e m i) := by
  induction d generalizing c with
  | zero => simp [cubeIntegral, monomialAt]
  | succ d ih =>
    have hterm : ∀ x point, ∑ m ∈ s, c m * monomialAt (List.ofFn (e m)) (x :: point) =
        ∑ m ∈ s, c m * x ^ e m 0 * monomialAt (List.ofFn fun i => e m i.succ) point := by
      intro x point
      simp only [List.ofFn_succ, monomialAt_cons, mul_assoc]
    calc cubeIntegral (d + 1) (fun point => ∑ m ∈ s, c m * monomialAt (List.ofFn (e m)) point)
        = ∫ x in (-1 : ℝ)..1, ∑ m ∈ s, c m * x ^ e m 0 *
            ∏ i : Fin d, Gauss.interval ℝ (X ^ e m i.succ) := by
          simp only [cubeIntegral, hterm, ih]
      _ = ∑ m ∈ s, ∫ x in (-1 : ℝ)..1, c m * x ^ e m 0 *
            ∏ i : Fin d, Gauss.interval ℝ (X ^ e m i.succ) := by
          refine intervalIntegral.integral_finsetSum fun m _ => ?_
          exact Continuous.intervalIntegrable (by fun_prop) _ _
      _ = ∑ m ∈ s, c m * ∏ i, Gauss.interval ℝ (X ^ e m i) := by
          refine Finset.sum_congr rfl fun m _ => ?_
          rw [intervalIntegral.integral_mul_const, intervalIntegral.integral_const_mul,
            integral_pow_eq_interval, Fin.prod_univ_succ, mul_assoc]

/-- Over the cube, the product of the integrals of the factors. -/
theorem cubeIntegral_monomialAt {d : ℕ} (e : Fin d → ℕ) :
    cubeIntegral d (monomialAt (List.ofFn e)) = ∏ i, Gauss.interval ℝ (X ^ e i) := by
  have h := cubeIntegral_sum {()} (fun _ => 1) fun _ => e
  simpa only [Finset.sum_singleton, one_mul] using h

theorem linear_cubeIntegral (d : ℕ) : LinearOnMonomials d (cubeIntegral d) where
  congr _ _ := cubeIntegral_congr
  sum s c := by
    rw [cubeIntegral_sum s c fun m => m]
    simp only [cubeIntegral_monomialAt]

/-! ## The simplex -/

/-- Euler's beta integral, over any length. -/
theorem integral_pow_mul_sub_pow (a b : ℕ) (size : ℝ) :
    ∫ x in (0 : ℝ)..size, x ^ a * (size - x) ^ b =
      size ^ (a + b + 1) * (a ! * b ! / (a + b + 1)!) := by
  have hterm : ∀ x : ℝ, (size / 2 + size / 2 * x) ^ a * (size - (size / 2 + size / 2 * x)) ^ b =
      (size / 2) ^ (b + a) * ((1 - X : ℝ[X]) ^ b * (1 + X) ^ a).eval x := by
    intro x
    simp only [eval_mul, eval_pow, eval_sub, eval_add, eval_one, eval_X]
    rw [show size - (size / 2 + size / 2 * x) = size / 2 * (1 - x) by ring,
      show size / 2 + size / 2 * x = size / 2 * (1 + x) by ring, mul_pow, mul_pow, pow_add]
    ring
  have hends : size / 2 + size / 2 * -1 = 0 ∧ size / 2 + size / 2 * 1 = size := by
    constructor <;> ring
  have hhalf := Gauss.half_pow_mul_interval (K := ℝ) b a
  calc ∫ x in (0 : ℝ)..size, x ^ a * (size - x) ^ b
      = size / 2 * ∫ x in (-1 : ℝ)..1,
          (size / 2 + size / 2 * x) ^ a * (size - (size / 2 + size / 2 * x)) ^ b := by
        rw [intervalIntegral.mul_integral_comp_add_mul (f := fun x => x ^ a * (size - x) ^ b),
          hends.1, hends.2]
    _ = size ^ (b + a + 1) * ((1 / 2) ^ (b + a + 1) *
          Gauss.interval ℝ ((1 - X) ^ b * (1 + X) ^ a)) := by
        simp only [hterm]
        rw [intervalIntegral.integral_const_mul, ← Gauss.interval_eq_integral, ← mul_assoc,
          ← mul_assoc, ← pow_succ', ← mul_pow]
        ring_nf
    _ = size ^ (a + b + 1) * (a ! * b ! / (a + b + 1)!) := by
        rw [hhalf, add_comm b a, mul_comm (b ! : ℝ)]

/-- The integral of a monomial over the simplex of size one. -/
noncomputable def dirichlet {d : ℕ} (e : Fin d → ℕ) : ℝ := (∏ i, (e i)! : ℕ) / (∑ i, e i + d)!

theorem dirichlet_succ {d : ℕ} (e : Fin (d + 1) → ℕ) :
    (e 0)! * (∑ i : Fin d, e i.succ + d)! / (e 0 + (∑ i : Fin d, e i.succ + d) + 1)! *
      dirichlet (fun i => e i.succ) = dirichlet e := by
  have hfact : ((∑ i : Fin d, e i.succ + d)! : ℝ) ≠ 0 := by
    exact_mod_cast Nat.factorial_ne_zero _
  have hsum : e 0 + (∑ i : Fin d, e i.succ + d) + 1 = ∑ i, e i + (d + 1) := by
    rw [Fin.sum_univ_succ]
    ring
  rw [dirichlet, dirichlet, hsum, Fin.prod_univ_succ]
  push_cast
  field_simp

/-- A sum of monomials over the simplex. What the first coordinate leaves of the size becomes a
power that is integrated with it. -/
theorem simplexIntegral_sum {ι : Type} {d : ℕ} (s : Finset ι) (c : ι → ℝ) (e : ι → Fin d → ℕ)
    (size : ℝ) :
    simplexIntegral d size (fun point => ∑ m ∈ s, c m * monomialAt (List.ofFn (e m)) point) =
      ∑ m ∈ s, c m * (size ^ (∑ i, e m i + d) * dirichlet (e m)) := by
  induction d generalizing c size with
  | zero => simp [simplexIntegral, monomialAt, dirichlet]
  | succ d ih =>
    have hterm : ∀ x point, ∑ m ∈ s, c m * monomialAt (List.ofFn (e m)) (x :: point) =
        ∑ m ∈ s, c m * x ^ e m 0 * monomialAt (List.ofFn fun i => e m i.succ) point := by
      intro x point
      simp only [List.ofFn_succ, monomialAt_cons, mul_assoc]
    have hrest : ∀ (m : ι) (x : ℝ), c m * x ^ e m 0 *
          ((size - x) ^ (∑ i : Fin d, e m i.succ + d) * dirichlet fun i => e m i.succ) =
        c m * dirichlet (fun i => e m i.succ) *
          (x ^ e m 0 * (size - x) ^ (∑ i : Fin d, e m i.succ + d)) := fun m x => by ring
    calc simplexIntegral (d + 1) size
          (fun point => ∑ m ∈ s, c m * monomialAt (List.ofFn (e m)) point)
        = ∫ x in (0 : ℝ)..size, ∑ m ∈ s, c m * dirichlet (fun i => e m i.succ) *
            (x ^ e m 0 * (size - x) ^ (∑ i : Fin d, e m i.succ + d)) := by
          simp only [simplexIntegral, hterm, ih, hrest]
      _ = ∑ m ∈ s, ∫ x in (0 : ℝ)..size, c m * dirichlet (fun i => e m i.succ) *
            (x ^ e m 0 * (size - x) ^ (∑ i : Fin d, e m i.succ + d)) := by
          refine intervalIntegral.integral_finsetSum fun m _ => ?_
          exact Continuous.intervalIntegrable (by fun_prop) _ _
      _ = ∑ m ∈ s, c m * (size ^ (∑ i, e m i + (d + 1)) * dirichlet (e m)) := by
          refine Finset.sum_congr rfl fun m _ => ?_
          rw [intervalIntegral.integral_const_mul, integral_pow_mul_sub_pow, ← dirichlet_succ,
            Fin.sum_univ_succ, show e m 0 + (∑ i : Fin d, e m i.succ + d) + 1 =
              e m 0 + ∑ i : Fin d, e m i.succ + (d + 1) by ring]
          ring

theorem simplexIntegral_congr {d : ℕ} {size : ℝ} {f g : List ℝ → ℝ}
    (h : ∀ point, point.length = d → f point = g point) :
    simplexIntegral d size f = simplexIntegral d size g := by
  induction d generalizing f g size with
  | zero => exact h [] rfl
  | succ d ih =>
    refine intervalIntegral.integral_congr fun x _ => ih fun point hpoint => ?_
    exact h (x :: point) (congrArg (· + 1) hpoint)

theorem simplexIntegral_monomialAt {d : ℕ} (e : Fin d → ℕ) (size : ℝ) :
    simplexIntegral d size (monomialAt (List.ofFn e)) =
      size ^ (∑ i, e i + d) * dirichlet e := by
  have h := simplexIntegral_sum {()} (fun _ => 1) (fun _ => e) size
  simpa only [Finset.sum_singleton, one_mul] using h

theorem linear_simplexIntegral (d : ℕ) (size : ℝ) :
    LinearOnMonomials d (simplexIntegral d size) where
  congr _ _ := simplexIntegral_congr
  sum s c := by
    rw [simplexIntegral_sum s c (fun m => m) size]
    simp only [simplexIntegral_monomialAt]

theorem Kind.integral_triangle (a b : ℕ) :
    Kind.integral .triangle (monomialAt [a, b]) = a ! * b ! / (a + b + 2)! := by
  have h := simplexIntegral_monomialAt ![a, b] 1
  rw [one_pow, one_mul, dirichlet, Fin.sum_univ_two, Fin.prod_univ_two] at h
  simpa [Kind.integral] using h

theorem Kind.integral_tetrahedron (a b c : ℕ) :
    Kind.integral .tetrahedron (monomialAt [a, b, c]) = a ! * b ! * c ! / (a + b + c + 3)! := by
  have h := simplexIntegral_monomialAt ![a, b, c] 1
  rw [one_pow, one_mul, dirichlet, Fin.sum_univ_three, Fin.prod_univ_three] at h
  simpa [Kind.integral] using h

/-- The integral over a reference element is linear. -/
theorem Kind.linear_integral {kind : Kind} {d : ℕ} (h : kind.dim? = some d) :
    LinearOnMonomials d kind.integral := by
  cases kind with
  | arbitrary => cases h
  | line | quadrilateral | hexahedron =>
    cases h
    exact linear_cubeIntegral _
  | triangle | tetrahedron =>
    cases h
    exact linear_simplexIntegral _ _

end Cubature
