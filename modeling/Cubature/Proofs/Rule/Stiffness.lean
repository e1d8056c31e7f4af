import Cubature.Proofs.Gauss.Deficit
import Cubature.Proofs.Gauss.Roots
import Cubature.Proofs.Rule.Element
import Mathlib.Algebra.MvPolynomial.PDeriv
import Mathlib.RingTheory.MvPolynomial.IrreducibleQuadratic

/-!
# Orders for stiffness matrices

A stiffness matrix is made of integrals of products of first derivatives. The polynomials of an
element (`Kind.space`) have the degree in each coordinate on the tensor products and in all together
on the others. A derivative lowers the degree in its own direction only, so on the tensor products a
product keeps twice the degree in the directions in which neither factor is differentiated.

* `Rule.Attains`: a rule of order `n` is exact up to degree `2 n - 1`, and too small for the next
  power of the last coordinate. All kinds of rules are (`Rule.attains_generate`).
* `Rule.Attains.integratesStiffness_iff`: the least order that is sufficient is the degree, and one
  more on the tensor products.
* `Rule.orderForStiffness_iff`: so the order that is chosen is not sufficient on the tensor
  products.
-/

namespace Cubature

open Polynomial (X)
open scoped Nat Scalar.Exact

/-! ## Polynomials of an element -/

namespace Kind

/-- The kinds whose rules are tensor products of at least two line rules. -/
def isTensor : Kind → Bool
  | .quadrilateral | .hexahedron => true
  | _ => false

/-- The exponents of a monomial of at most a degree: in each coordinate on the tensor products, in
all together on the other elements. -/
def DegreeLE (kind : Kind) (degree : ℕ) {d : ℕ} (e : Fin d → ℕ) : Prop :=
  if kind.isTensor then ∀ i, e i ≤ degree else ∑ i, e i ≤ degree

/-- The polynomials of degree `p` on an element with `d` coordinates. -/
noncomputable def space (kind : Kind) (d p : ℕ) : Submodule ℝ (MvPolynomial (Fin d) ℝ) :=
  if kind.isTensor then MvPolynomial.restrictDegree (Fin d) ℝ p
  else MvPolynomial.restrictTotalDegree (Fin d) ℝ p

theorem mem_space_iff {kind : Kind} {d p : ℕ} {q : MvPolynomial (Fin d) ℝ} :
    q ∈ kind.space d p ↔ ∀ m ∈ q.support, kind.DegreeLE p m := by
  have hsum : ∀ m : Fin d →₀ ℕ, (m.sum fun _ e => e) = ∑ i, m i :=
    fun m => m.sum_fintype _ fun _ => rfl
  unfold space DegreeLE
  split
  · exact MvPolynomial.mem_restrictDegree _ _ _
  · rw [MvPolynomial.mem_restrictTotalDegree, MvPolynomial.totalDegree, Finset.sup_le_iff]
    simp only [hsum]

theorem monomial_mem_space {kind : Kind} {d p : ℕ} {e : Fin d →₀ ℕ} (h : kind.DegreeLE p e)
    (c : ℝ) : MvPolynomial.monomial e c ∈ kind.space d p := by
  refine mem_space_iff.mpr fun m hm => ?_
  obtain rfl := Finset.mem_singleton.mp (MvPolynomial.support_monomial_subset hm)
  exact h

theorem dim_pos {kind : Kind} {d : ℕ} (hdim : kind.dim? = some d) : 0 < d := by
  cases kind <;> cases hdim <;> decide

theorem two_le_of_isTensor {kind : Kind} {d : ℕ} (hdim : kind.dim? = some d)
    (h : kind.isTensor = true) : 2 ≤ d := by
  cases kind <;> cases h <;> cases hdim <;> decide

/-- The least order that integrates stiffness matrices. -/
def stiffnessOrder (kind : Kind) (p : ℕ) : ℕ := if kind.isTensor then p + 1 else p

end Kind

/-! ## Derivatives -/

section Derivatives

variable {kind : Kind} {d p n : ℕ} {u v : MvPolynomial (Fin d) ℝ} {i j : Fin d} {m : Fin d →₀ ℕ}

/-- A monomial of a derivative comes from one with a higher power. -/
theorem mem_support_of_pderiv (h : m ∈ (MvPolynomial.pderiv i u).support) :
    m + Finsupp.single i 1 ∈ u.support := by
  rw [MvPolynomial.mem_support_iff, MvPolynomial.coeff_pderiv] at h
  exact MvPolynomial.mem_support_iff.mpr (left_ne_zero_of_mul h)

/-- On a tensor product the derivative keeps the degree. -/
theorem Kind.le_of_pderiv (htensor : kind.isTensor = true) (hu : u ∈ kind.space d p)
    (h : m ∈ (MvPolynomial.pderiv i u).support) (k : Fin d) : m k ≤ p := by
  have hdegree := mem_space_iff.mp hu _ (mem_support_of_pderiv h)
  rw [DegreeLE, if_pos htensor] at hdegree
  exact (Nat.le_add_right _ _).trans (hdegree k)

/-- On the other elements it lowers the degree. -/
theorem Kind.sum_lt_of_pderiv (htensor : kind.isTensor = false) (hu : u ∈ kind.space d p)
    (h : m ∈ (MvPolynomial.pderiv i u).support) : ∑ k, m k < p := by
  have hdegree := mem_space_iff.mp hu _ (mem_support_of_pderiv h)
  rw [DegreeLE, if_neg (by simp [htensor])] at hdegree
  simpa [Finset.sum_add_distrib] using hdegree

/-- The monomials of a product of derivatives are below twice the order that is needed. -/
theorem Kind.degreeLE_of_stiffness (hn : kind.stiffnessOrder p ≤ n) (hu : u ∈ kind.space d p)
    (hv : v ∈ kind.space d p)
    (h : m ∈ (MvPolynomial.pderiv i u * MvPolynomial.pderiv j v).support) :
    kind.DegreeLE (2 * n - 1) m := by
  classical
  obtain ⟨a, ha, b, hb, rfl⟩ := Finset.mem_add.mp (MvPolynomial.support_mul _ _ h)
  unfold stiffnessOrder at hn
  unfold DegreeLE
  cases htensor : kind.isTensor with
  | true =>
    rw [htensor, if_pos rfl] at hn
    rw [if_pos rfl]
    intro k
    have hak := le_of_pderiv htensor hu ha k
    have hbk := le_of_pderiv htensor hv hb k
    rw [Finsupp.add_apply]
    omega
  | false =>
    rw [htensor, if_neg (by decide)] at hn
    rw [if_neg (by decide)]
    have ha' := sum_lt_of_pderiv htensor hu ha
    have hb' := sum_lt_of_pderiv htensor hv hb
    simp only [Finsupp.add_apply, Finset.sum_add_distrib]
    omega

/-- A product of derivatives that is a power of the last coordinate of degree `2 n`, if the order
`n` is below the one that is needed. On a tensor product the derivative is taken in another
direction. -/
theorem Kind.exists_stiffness_eq_monomial {last : Fin d} (hdim : kind.dim? = some d)
    (hlast : last + 1 = d) (hn : 1 ≤ n) (hless : n < kind.stiffnessOrder p) :
    ∃ u ∈ kind.space d p, ∃ i, ∃ c : ℝ, c ≠ 0 ∧
      MvPolynomial.pderiv i u * MvPolynomial.pderiv i u =
        MvPolynomial.monomial (Finsupp.single last (2 * n)) c := by
  classical
  unfold stiffnessOrder at hless
  cases htensor : kind.isTensor with
  | true =>
    rw [htensor, if_pos rfl] at hless
    -- A derivative in the first direction keeps the degree `n` in the last one.
    obtain ⟨first, hfirst⟩ : ∃ first : Fin d, first ≠ last := by
      refine ⟨⟨0, last.pos⟩, Fin.ne_of_lt ?_⟩
      have := two_le_of_isTensor hdim htensor
      show 0 < last.val
      omega
    refine ⟨_, monomial_mem_space (e := Finsupp.single first 1 + Finsupp.single last n) ?_ 1, first,
      1, one_ne_zero, ?_⟩
    · rw [DegreeLE, if_pos htensor]
      intro k
      rw [Finsupp.add_apply, Finsupp.single_apply, Finsupp.single_apply]
      split
      · rw [if_neg (by rintro rfl; contradiction)]
        omega
      · split <;> omega
    · rw [MvPolynomial.pderiv_monomial, add_tsub_cancel_left, MvPolynomial.monomial_mul,
        ← Finsupp.single_add, ← two_mul]
      simp [hfirst]
  | false =>
    rw [htensor, if_neg (by decide)] at hless
    -- The degree in all coordinates together leaves room for one more than `n`.
    refine ⟨_, monomial_mem_space (e := Finsupp.single last (n + 1)) ?_ 1, last, (n + 1) * (n + 1),
      by positivity, ?_⟩
    · rw [DegreeLE, if_neg (by simp [htensor])]
      simp only [Finsupp.single_apply, Finset.sum_ite_eq, Finset.mem_univ, if_true]
      exact hless
    · rw [MvPolynomial.pderiv_monomial_single, MvPolynomial.monomial_mul, ← Finsupp.single_add,
        ← two_mul]
      simp

end Derivatives

/-! ## Rules of an order -/

/-- One-dimensional rules of `n` points for all weights, as exact as such rules can be. -/
def GaussExact (oneDim : UInt32 → Except Failure (Gauss.Nodes ℝ)) (n : ℕ) : Prop :=
  ∀ alpha ≤ 2, ∃ nodes, oneDim alpha = .ok nodes ∧ nodes.ExactTo n alpha.toNat (2 * n - 1)

theorem exists_gaussExact {n : ℕ} (hn : 1 ≤ n) : ∃ oneDim, GaussExact oneDim n := by
  choose nodes hexact using fun a => Gauss.exists_exactTo a hn
  exact ⟨fun alpha => .ok (nodes alpha.toNat), fun alpha _ => ⟨_, rfl, hexact _⟩⟩

namespace Rule

variable {n : ℕ} {s t r : Gauss.Nodes ℝ}

/-- The rule is a sum over points of the element that is exact up to degree `2 n - 1`, and too small
for the next power of the last coordinate. -/
structure Attains (rule : Rule ℝ) (kind : Kind) (d n : ℕ) : Prop where
  form : ∃ sum, LinearOnMonomials d sum ∧ ∀ f, rule.integrate f = .ok (sum f)
  exact : ∀ e : Fin d →₀ ℕ, kind.DegreeLE (2 * n - 1) e →
    rule.integrate (monomialAt (List.ofFn e)) = .ok (kind.integral (monomialAt (List.ofFn e)))
  deficit : ∀ last : Fin d, last + 1 = d → ∃ v,
    rule.integrate (monomialAt (List.ofFn (Finsupp.single last (2 * n)))) = .ok v ∧
      v < kind.integral (monomialAt (List.ofFn (Finsupp.single last (2 * n))))

theorem Lists.form {rule : Rule ℝ} {table : List (List ℝ × ℝ)} (h : rule.Lists table) :
    ∃ sum, LinearOnMonomials rule.dim sum ∧ ∀ f, rule.integrate f = .ok (sum f) :=
  ⟨tableSum table, linear_tableSum h.length_coords, h.integrate_eq_tableSum⟩

/-! ### Tensor products -/

section Tensor

/-- A rule over the cube whose sums of monomials are products of sums over the line. -/
theorem attains_of_prod {rule : Rule ℝ} {kind : Kind} {d : ℕ} (hn : 1 ≤ n)
    (hs : s.ExactTo n 0 (2 * n - 1)) (hkind : kind.integral = cubeIntegral d)
    (hdegree : ∀ degree (e : Fin d → ℕ), kind.DegreeLE degree e → ∀ i, e i ≤ degree)
    (hform : ∃ sum, LinearOnMonomials d sum ∧ ∀ f, rule.integrate f = .ok (sum f))
    (hsum : ∀ e : Fin d → ℕ, rule.integrate (monomialAt (List.ofFn e)) =
      .ok (∏ i, weightedSum s.pairs (· ^ e i))) : rule.Attains kind d n where
  form := hform
  exact e he := by
    rw [hsum, hkind, cubeIntegral_monomialAt]
    exact congrArg _ (Finset.prod_congr rfl fun i _ => hs.sum_pow (hdegree _ e he i))
  deficit last _ := by
    refine ⟨_, hsum _, ?_⟩
    have hzero : Gauss.interval ℝ (X ^ 0) = 2 := by
      rw [Gauss.interval_X_pow]
      norm_num
    have hothers : ∀ i ∈ Finset.univ.erase last,
        weightedSum s.pairs (· ^ Finsupp.single last (2 * n) i) = 2 ∧
          Gauss.interval ℝ (X ^ Finsupp.single last (2 * n) i) = 2 := by
      intro i hi
      rw [Finsupp.single_eq_of_ne (Finset.ne_of_mem_erase hi), hs.sum_pow (Nat.zero_le _)]
      exact ⟨hzero, hzero⟩
    have hlt := hs.sum_pow_lt hn
    rw [pow_zero, one_mul] at hlt
    rw [hkind, cubeIntegral_monomialAt, ← Finset.mul_prod_erase _ _ (Finset.mem_univ last),
      ← Finset.mul_prod_erase _ _ (Finset.mem_univ last),
      Finset.prod_congr rfl fun i hi => (hothers i hi).1,
      Finset.prod_congr rfl fun i hi => (hothers i hi).2, Finset.prod_const, Finsupp.single_eq_same]
    exact mul_lt_mul_of_pos_right hlt (by positivity)

theorem lists_square (h : s.locations.length = s.weights.length) :
    (quadrilateral (line n s)).Lists (squareTable s.pairs) :=
  lists_quadrilateral (Gauss.Nodes.locations_eq_map h) (Gauss.Nodes.weights_eq_map h)

variable (hn : 1 ≤ n) (hs : s.ExactTo n 0 (2 * n - 1))

include hn hs

theorem attains_line : (line n s).Attains .line 1 n := by
  have hlists : (line n s).Lists (lineTable s.pairs) :=
    lists_line (Gauss.Nodes.locations_eq_map hs.length_eq) (Gauss.Nodes.weights_eq_map hs.length_eq)
  refine attains_of_prod hn hs rfl (fun degree e he i => ?_) hlists.form fun e => ?_
  · rw [Kind.DegreeLE, if_neg (by decide), Fin.sum_univ_one] at he
    rwa [Subsingleton.elim i 0]
  · rw [hlists.integrate_eq_tableSum]
    simp [tableSum, lineTable, weightedSum, monomialAt, Function.comp_def]

theorem attains_quadrilateral : (quadrilateral (line n s)).Attains .quadrilateral 2 n := by
  have hlists : (quadrilateral (line n s)).Lists (squareTable s.pairs) := lists_square hs.length_eq
  refine attains_of_prod hn hs rfl (fun degree e he => he) hlists.form fun e => ?_
  have hpoint : ∀ x y : ℝ, monomialAt (List.ofFn e) [x, y] = x ^ e 0 * y ^ e 1 := by
    simp [monomialAt]
  rw [integrate_square hlists, Fin.prod_univ_two]
  simp only [hpoint, weightedSum_const_mul, weightedSum_mul_const]

theorem attains_hexahedron : (hexahedron (line n s)).Attains .hexahedron 3 n := by
  have hlists : (hexahedron (line n s)).Lists (cubeTable s.pairs) :=
    lists_hexahedron (Gauss.Nodes.locations_eq_map hs.length_eq)
      (Gauss.Nodes.weights_eq_map hs.length_eq)
  refine attains_of_prod hn hs rfl (fun degree e he => he) hlists.form fun e => ?_
  have hpoint : ∀ x y z : ℝ, monomialAt (List.ofFn e) [x, y, z] = x ^ e 0 * y ^ e 1 * z ^ e 2 := by
    simp [monomialAt, mul_assoc]
  rw [integrate_cube hlists, Fin.prod_univ_three]
  simp only [hpoint, weightedSum_const_mul, weightedSum_mul_const]

end Tensor

/-! ### Collapsed products -/

section Simplex

variable (hn : 1 ≤ n) (hs : s.ExactTo n 0 (2 * n - 1)) (ht : t.ExactTo n 1 (2 * n - 1))

include hn hs ht

theorem attains_triangle : (triangle n (s.onUnit 0) (t.onUnit 1)).Attains .triangle 2 n where
  form := (lists_triangle_onUnit hs ht).form
  exact e he := by
    rw [Kind.DegreeLE, if_neg (by decide), Fin.sum_univ_two] at he
    rw [show List.ofFn e = [e 0, e 1] by simp, integrate_triangle_monomial hs ht he,
      Kind.integral_triangle]
  deficit last hlast := by
    obtain rfl : last = 1 := Fin.ext (by omega)
    have hpoint : ∀ x y : ℝ, monomialAt [0, 2 * n] [x * (1 - y), y] = y ^ (2 * n) * x ^ 0 := by
      simp [monomialAt]
    have hinner : weightedSum (s.unitPairs 0) (· ^ 0) = 1 := by
      rw [hs.sum_unit_pow (Nat.zero_le _)]
      norm_num
    have hintegral : Kind.integral .triangle (monomialAt [0, 2 * n]) =
        1 ! * (2 * n)! / (1 + 2 * n + 1)! := by
      rw [Kind.integral_triangle, show 0 + 2 * n + 2 = 1 + 2 * n + 1 by ring, Nat.factorial_zero,
        Nat.factorial_one]
    rw [show List.ofFn (Finsupp.single (1 : Fin 2) (2 * n)) = [0, 2 * n] by simp,
      integrate_triangle (lists_triangle_onUnit hs ht), hintegral]
    refine ⟨_, rfl, ?_⟩
    simp only [hpoint, weightedSum_const_mul, hinner, mul_one]
    exact ht.sum_unit_pow_lt hn

theorem attains_tetrahedron (hr : r.ExactTo n 2 (2 * n - 1)) :
    (tetrahedron n (s.onUnit 0) (t.onUnit 1) (r.onUnit 2)).Attains .tetrahedron 3 n where
  form := (lists_tetrahedron_onUnit hs ht hr).form
  exact e he := by
    rw [Kind.DegreeLE, if_neg (by decide), Fin.sum_univ_three] at he
    rw [show List.ofFn e = [e 0, e 1, e 2] by simp, integrate_tetrahedron_monomial hs ht hr he,
      Kind.integral_tetrahedron]
  deficit last hlast := by
    obtain rfl : last = 2 := Fin.ext (by omega)
    have hpoint : ∀ x y z : ℝ, monomialAt [0, 0, 2 * n] [x * (1 - y) * (1 - z), y * (1 - z), z] =
        z ^ (2 * n) * ((1 - y) ^ 0 * y ^ 0 * x ^ 0) := by
      simp [monomialAt]
    have hinner : weightedSum (t.unitPairs 1) (fun y => (1 - y) ^ 0 * y ^ 0) *
        weightedSum (s.unitPairs 0) (· ^ 0) = 1 / 2 := by
      rw [hs.sum_unit_pow (Nat.zero_le _), ht.sum_unit (Nat.zero_le _)]
      norm_num
    have hintegral : Kind.integral .tetrahedron (monomialAt [0, 0, 2 * n]) =
        2 ! * (2 * n)! / (2 + 2 * n + 1)! * (1 / 2) := by
      rw [Kind.integral_tetrahedron, show 0 + 0 + 2 * n + 3 = 2 + 2 * n + 1 by ring,
        Nat.factorial_zero, Nat.factorial_two]
      push_cast
      ring
    rw [show List.ofFn (Finsupp.single (2 : Fin 3) (2 * n)) = [0, 0, 2 * n] by
        simp [List.ofFn_succ, Finsupp.single_apply],
      integrate_tetrahedron (lists_tetrahedron_onUnit hs ht hr), hintegral]
    refine ⟨_, rfl, ?_⟩
    simp only [hpoint, weightedSum_const_mul, weightedSum_mul_const, hinner]
    exact mul_lt_mul_of_pos_right (hr.sum_unit_pow_lt hn) one_half_pos

end Simplex

/-! ## Sufficient orders -/

section Sufficient

variable {oneDim : UInt32 → Except Failure (Gauss.Nodes ℝ)} {kind : Kind} {d p : ℕ}
  {rule : Rule ℝ}

theorem attains_generate (hdim : kind.dim? = some d) (hn : 1 ≤ n) (h : GaussExact oneDim n) :
    ∃ rule, generate oneDim kind n = .ok rule ∧ rule.Attains kind d n := by
  obtain ⟨s, hs, exact_s⟩ := h 0 (by decide)
  obtain ⟨t, ht, exact_t⟩ := h 1 (by decide)
  obtain ⟨r, hr, exact_r⟩ := h 2 (by decide)
  cases kind with
  | arbitrary => cases hdim
  | line =>
    cases hdim
    exact ⟨_, by rw [generate, hs]; rfl, attains_line hn exact_s⟩
  | quadrilateral =>
    cases hdim
    exact ⟨_, by rw [generate, hs]; rfl, attains_quadrilateral hn exact_s⟩
  | hexahedron =>
    cases hdim
    exact ⟨_, by rw [generate, hs]; rfl, attains_hexahedron hn exact_s⟩
  | triangle =>
    cases hdim
    exact ⟨_, by rw [generate, hs, ht]; rfl, attains_triangle hn exact_s exact_t⟩
  | tetrahedron =>
    cases hdim
    exact ⟨_, by rw [generate, hs, ht, hr]; rfl, attains_tetrahedron hn exact_s exact_t exact_r⟩

/-- The rule integrates the product of a first derivative of one polynomial of the element and a
first derivative of another over the reference element, for all of them. -/
def IntegratesStiffness (rule : Rule ℝ) (kind : Kind) (d p : ℕ) : Prop :=
  ∀ u ∈ kind.space d p, ∀ v ∈ kind.space d p, ∀ i j : Fin d,
    rule.integrate (valueAt (MvPolynomial.pderiv i u * MvPolynomial.pderiv j v)) =
      .ok (kind.integral (valueAt (MvPolynomial.pderiv i u * MvPolynomial.pderiv j v)))

theorem Attains.integratesStiffness (h : rule.Attains kind d n) (hdim : kind.dim? = some d)
    (hless : kind.stiffnessOrder p ≤ n) : rule.IntegratesStiffness kind d p := by
  obtain ⟨sum, hlinear, hsum⟩ := h.form
  intro u hu v hv i j
  rw [hsum]
  refine congrArg _ (hlinear.eq_of_monomials (Kind.linear_integral hdim) fun m hm => ?_)
  have hexact := h.exact m (Kind.degreeLE_of_stiffness hless hu hv hm)
  rw [hsum] at hexact
  exact Except.ok.inj hexact

theorem Attains.not_integratesStiffness (h : rule.Attains kind d n) (hdim : kind.dim? = some d)
    (hn : 1 ≤ n) (hless : n < kind.stiffnessOrder p) : ¬rule.IntegratesStiffness kind d p := by
  intro hall
  obtain ⟨sum, hlinear, hsum⟩ := h.form
  obtain ⟨last, hlast⟩ : ∃ last : Fin d, last + 1 = d := by
    have hpos := Kind.dim_pos hdim
    exact ⟨⟨d - 1, by omega⟩, by show d - 1 + 1 = d; omega⟩
  obtain ⟨u, hu, i, c, hc, hproduct⟩ := Kind.exists_stiffness_eq_monomial hdim hlast hn hless
  obtain ⟨v, hv, hlt⟩ := h.deficit last hlast
  have heq := hall u hu u hu i i
  rw [hproduct, hsum] at heq
  have hvalue := Except.ok.inj heq
  rw [hlinear.valueAt_monomial _ hc, (Kind.linear_integral hdim).valueAt_monomial _ hc] at hvalue
  rw [hsum] at hv
  have hsame := mul_left_cancel₀ hc hvalue
  rw [Except.ok.inj hv] at hsame
  exact hlt.ne hsame

/-- The least order for stiffness matrices: the degree, and one more on the tensor products. -/
theorem Attains.integratesStiffness_iff (h : rule.Attains kind d n) (hdim : kind.dim? = some d)
    (hn : 1 ≤ n) : rule.IntegratesStiffness kind d p ↔ kind.stiffnessOrder p ≤ n :=
  ⟨fun hall => not_lt.mp fun hless => h.not_integratesStiffness hdim hn hless hall,
    h.integratesStiffness hdim⟩

/-- The order that is chosen for stiffness matrices, with exact one-dimensional rules of that order,
of which there are some: it is sufficient on the line, the triangle and the tetrahedron, and not on
the square and the cube. -/
theorem orderForStiffness_iff (hdim : kind.dim? = some d) (hp : 1 ≤ p) :
    (∃ oneDim, GaussExact oneDim (orderForStiffness p)) ∧
      ∀ oneDim, GaussExact oneDim (orderForStiffness p) →
        ∃ rule, generate oneDim kind (orderForStiffness p) = .ok rule ∧
          (rule.IntegratesStiffness kind d p ↔ kind ≠ .quadrilateral ∧ kind ≠ .hexahedron) := by
  have horder : orderForStiffness p = p := Nat.max_eq_left hp
  rw [horder]
  refine ⟨exists_gaussExact hp, fun oneDim h => ?_⟩
  obtain ⟨rule, hrule, hattains⟩ := attains_generate hdim hp h
  refine ⟨rule, hrule, ?_⟩
  rw [hattains.integratesStiffness_iff hdim hp, Kind.stiffnessOrder]
  cases kind <;> simp [Kind.isTensor]

/-- The one-point rules with one Newton step for each node. -/
def onePoint : UInt32 → Except Failure (Gauss.Nodes ℚ) := Gauss.rule (fun _ _ => 0) ⟨0, 1⟩ 1

theorem onePoint_ok {alpha : UInt32} {xs ws : List ℚ}
    (h : (onePoint alpha).toOption.map (fun nodes => (nodes.locations, nodes.weights)) =
      some (xs, ws)) :
    ∃ nodes, onePoint alpha = .ok nodes ∧ nodes.locations = xs ∧ nodes.weights = ws := by
  cases hrule : onePoint alpha with
  | error => rw [hrule] at h; cases h
  | ok nodes =>
    rw [hrule] at h
    exact ⟨nodes, rfl, Prod.mk.inj (Option.some.inj h)⟩

/-- The computed rules of one point, over the reals. -/
noncomputable def midpoint (alpha : UInt32) : Except Failure (Gauss.Nodes ℝ) :=
  (onePoint alpha).map fun nodes =>
    ⟨nodes.locations.map fun x => (x : ℝ), nodes.weights.map fun w => (w : ℝ), nodes.stalled⟩

theorem midpoint_ok {alpha : UInt32} (h : (onePoint alpha).toOption.map
    (fun nodes => (nodes.locations, nodes.weights)) =
      some ([-(alpha.toNat : ℚ) / (alpha.toNat + 2)],
        [(2 : ℚ) ^ (alpha.toNat + 1) / (alpha.toNat + 1)])) :
    ∃ nodes, midpoint alpha = .ok nodes ∧
      nodes.locations = [-(alpha.toNat : ℝ) / (alpha.toNat + 2)] ∧
      nodes.weights = [(2 : ℝ) ^ (alpha.toNat + 1) / (alpha.toNat + 1)] := by
  obtain ⟨nodes, hnodes, hx, hw⟩ := onePoint_ok h
  refine ⟨_, by rw [midpoint, hnodes]; rfl, ?_, ?_⟩
  · simp [hx]
  · simp [hw]

theorem gaussExact_midpoint : GaussExact midpoint 1 := by
  intro alpha halpha
  have hcases : alpha = 0 ∨ alpha = 1 ∨ alpha = 2 := by
    simp only [← UInt32.toNat_inj]
    have hle : alpha.toNat ≤ 2 := halpha
    show alpha.toNat = 0 ∨ alpha.toNat = 1 ∨ alpha.toNat = 2
    omega
  obtain ⟨nodes, hnodes, hx, hw⟩ := @midpoint_ok alpha (by
    rcases hcases with rfl | rfl | rfl <;> decide +kernel)
  exact ⟨nodes, hnodes, Gauss.exactTo_onePoint alpha.toNat hx hw⟩

/-- One point is sufficient for linear elements on the triangle and not for bilinear ones on the
square. -/
theorem orderForStiffness_iff_midpoint :
    (∃ rule, generate midpoint .triangle (orderForStiffness 1) = .ok rule ∧
      rule.IntegratesStiffness .triangle 2 1) ∧
    ∃ rule, generate midpoint .quadrilateral (orderForStiffness 1) = .ok rule ∧
      ¬rule.IntegratesStiffness .quadrilateral 2 1 := by
  obtain ⟨rule, hrule, hiff⟩ :=
    (@orderForStiffness_iff .triangle 2 1 rfl le_rfl).2 midpoint gaussExact_midpoint
  obtain ⟨rule', hrule', hiff'⟩ :=
    (@orderForStiffness_iff .quadrilateral 2 1 rfl le_rfl).2 midpoint gaussExact_midpoint
  exact ⟨⟨rule, hrule, hiff.mpr (by decide)⟩, rule', hrule', fun h => (hiff'.mp h).1 rfl⟩

/-- The product of the coordinates, which is bilinear. -/
noncomputable def bilinear : MvPolynomial (Fin 2) ℝ := MvPolynomial.X 0 * MvPolynomial.X 1

/-- The square of the derivative of `x y` by `x` has the integral `4 / 3` over the square, and the
midpoint that is chosen for bilinear elements makes it zero. -/
theorem bilinear_lost : bilinear ∈ Kind.space .quadrilateral 2 1 ∧
    Kind.integral .quadrilateral
      (valueAt (MvPolynomial.pderiv 0 bilinear * MvPolynomial.pderiv 0 bilinear)) = 4 / 3 ∧
    ∃ rule, generate midpoint .quadrilateral (orderForStiffness 1) = .ok rule ∧
      rule.integrate (valueAt (MvPolynomial.pderiv 0 bilinear * MvPolynomial.pderiv 0 bilinear)) =
        .ok 0 := by
  have hmonomial : bilinear =
      MvPolynomial.monomial (Finsupp.single 0 1 + Finsupp.single 1 1) 1 := by
    simp [bilinear, MvPolynomial.X, MvPolynomial.monomial_mul]
  have hderivative : MvPolynomial.pderiv 0 bilinear = MvPolynomial.X 1 := by
    simp [bilinear, MvPolynomial.pderiv_X]
  have hvalue : ∀ x y : ℝ,
      valueAt (MvPolynomial.X 1 * MvPolynomial.X 1 : MvPolynomial (Fin 2) ℝ) [x, y] = y ^ 2 := by
    simp [valueAt, pow_two]
  obtain ⟨nodes, hnodes, hx, hw⟩ := @midpoint_ok 0 (by decide +kernel)
  rw [hderivative]
  refine ⟨?_, ?_, quadrilateral (line 1 nodes), by rw [generate, hnodes]; rfl, ?_⟩
  · rw [hmonomial]
    refine Kind.monomial_mem_space ?_ 1
    rw [Kind.DegreeLE, if_pos (by decide)]
    intro i
    fin_cases i <;> simp
  · simp only [Kind.integral, cubeIntegral, hvalue]
    norm_num
  · rw [integrate_square (lists_square (by rw [hx, hw]; rfl))]
    simp [hvalue, weightedSum, Gauss.Nodes.pairs, hx, hw]

end Sufficient

end Rule

end Cubature
