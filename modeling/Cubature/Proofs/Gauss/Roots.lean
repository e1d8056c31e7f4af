import Cubature.Proofs.Gauss.Exact

/-!
# The roots of the polynomials

The orthogonal polynomial of degree `n` has `n` different roots inside `[-1, 1]` (`exists_roots`).
Any polynomial keeps its sign when it is multiplied by a linear factor for each of some of its roots
inside (`exists_sign_changes`), so its integral against the product of these factors is not zero;
with fewer roots than `n` it would be.

So there is a rule of every number of points that is as exact as it can be, at the roots and with
the weights that are computed there (`exists_exactTo`).
-/

namespace Cubature.Gauss

open Polynomial Set

variable {a n : ℕ} {p : ℝ[X]}

/-- A polynomial without a root inside keeps its sign. -/
theorem exists_sign (h : ∀ x ∈ Ioo (-1 : ℝ) 1, p.eval x ≠ 0) :
    ∃ c : ℝ, c ≠ 0 ∧ ∀ x ∈ Icc (-1 : ℝ) 1, 0 ≤ c * p.eval x := by
  have hbetween : ∀ x ∈ Icc (-1 : ℝ) 1, ∀ y ∈ Icc (-1 : ℝ) 1, x ≤ y →
      ¬0 ∈ (fun x => p.eval x) '' Ioo x y := by
    rintro x hx y hy - ⟨r, hr, hzero⟩
    exact h r ⟨hx.1.trans_lt hr.1, hr.2.trans_le hy.2⟩ hzero
  by_cases hneg : ∃ x ∈ Icc (-1 : ℝ) 1, p.eval x < 0
  · obtain ⟨x, hx, hless⟩ := hneg
    refine ⟨-1, by norm_num, fun y hy => ?_⟩
    rw [neg_one_mul, neg_nonneg]
    by_contra hmore
    rw [not_le] at hmore
    rcases le_total x y with hxy | hyx
    · exact hbetween x hx y hy hxy (intermediate_value_Ioo hxy p.continuousOn ⟨hless, hmore⟩)
    · exact hbetween y hy x hx hyx (intermediate_value_Ioo' hyx p.continuousOn ⟨hless, hmore⟩)
  · refine ⟨1, one_ne_zero, fun y hy => ?_⟩
    rw [one_mul, ← not_lt]
    exact fun hless => hneg ⟨y, hy, hless⟩

/-- A polynomial times the linear factors of some of its roots inside keeps its sign. A root is
taken or left so that its factor comes an even number of times. -/
theorem exists_sign_changes (hp : p ≠ 0) : ∃ (roots : Finset ℝ) (c : ℝ), c ≠ 0 ∧
    (∀ r ∈ roots, r ∈ Ioo (-1 : ℝ) 1 ∧ p.eval r = 0) ∧
    ∀ x ∈ Icc (-1 : ℝ) 1, 0 ≤ c * (p * ∏ r ∈ roots, (X - C r)).eval x := by
  induction hdegree : p.natDegree using Nat.strong_induction_on generalizing p with
  | h degree ih =>
    by_cases hroot : ∃ r ∈ Ioo (-1 : ℝ) 1, p.eval r = 0
    case neg =>
      obtain ⟨c, hc, hsign⟩ := exists_sign fun x hx hzero => hroot ⟨x, hx, hzero⟩
      exact ⟨∅, c, hc, by simp, by simpa using hsign⟩
    case pos =>
      obtain ⟨r, hr, hzero⟩ := hroot
      obtain ⟨q, rfl⟩ := dvd_iff_isRoot.mpr hzero
      have hq : q ≠ 0 := right_ne_zero_of_mul hp
      rw [natDegree_mul (X_sub_C_ne_zero r) hq, natDegree_X_sub_C] at hdegree
      obtain ⟨roots, c, hc, hroots, hsign⟩ := ih q.natDegree (by omega) hq rfl
      have hzeros : ∀ t ∈ roots, ((X - C r) * q).eval t = 0 := by
        intro t ht
        rw [eval_mul, (hroots t ht).2, mul_zero]
      by_cases hmem : r ∈ roots
      · refine ⟨roots.erase r, c, hc, fun t ht => ?_, fun x hx => ?_⟩
        · have ht' := Finset.mem_of_mem_erase ht
          exact ⟨(hroots t ht').1, hzeros t ht'⟩
        · rw [mul_comm (X - C r), mul_assoc, Finset.mul_prod_erase roots (fun t => X - C t) hmem]
          exact hsign x hx
      · refine ⟨insert r roots, c, hc, fun t ht => ?_, fun x hx => ?_⟩
        · rcases Finset.mem_insert.mp ht with rfl | ht'
          · exact ⟨hr, hzero⟩
          · exact ⟨(hroots t ht').1, hzeros t ht'⟩
        · have hvalue : c * ((X - C r) * q * ∏ t ∈ insert r roots, (X - C t)).eval x =
              (x - r) ^ 2 * (c * (q * ∏ t ∈ roots, (X - C t)).eval x) := by
            rw [Finset.prod_insert hmem]
            simp only [eval_mul, eval_sub, eval_X, eval_C]
            ring
          rw [hvalue]
          exact mul_nonneg (sq_nonneg _) (hsign x hx)

/-- There are as many roots inside as the degree says. -/
theorem exists_roots (a n : ℕ) : ∃ z : Fin n → ℝ, Function.Injective z ∧
    ∀ i, z i ∈ Ioo (-1 : ℝ) 1 ∧ (jacobiPolynomial ℝ a n).eval (z i) = 0 := by
  have hne := jacobiPolynomial_ne_zero (K := ℝ) a n
  obtain ⟨roots, c, hc, hroots, hsign⟩ := exists_sign_changes hne
  have hcard : n ≤ roots.card := by
    by_contra hless
    have hdegree : (∏ r ∈ roots, (X - C r)).natDegree < n := by
      rw [natDegree_finsetProd_X_sub_C_eq_card]
      omega
    have horth := weighted_mul_of_lt a hdegree
    have hfactors : ∏ r ∈ roots, (X - C r) ≠ 0 :=
      Finset.prod_ne_zero_iff.mpr fun r _ => X_sub_C_ne_zero r
    have hpos := weighted_pos a (p := C c * (jacobiPolynomial ℝ a n * ∏ r ∈ roots, (X - C r)))
      (mul_ne_zero (C_ne_zero.mpr hc) (mul_ne_zero hne hfactors))
      fun x hx => by rw [eval_mul, eval_C]; exact hsign x hx
    rw [weighted_C_mul, mul_comm (jacobiPolynomial ℝ a n), horth, mul_zero] at hpos
    exact hpos.false
  obtain ⟨chosen, hsubset, hchosen⟩ := Finset.exists_subset_card_eq hcard
  refine ⟨chosen.orderEmbOfFin hchosen, (chosen.orderEmbOfFin hchosen).injective, fun i => ?_⟩
  exact hroots _ (hsubset (chosen.orderEmbOfFin_mem hchosen i))

/-- There is an exact rule of every number of points, for every weight. -/
theorem exists_exactTo (a : ℕ) (hn : 1 ≤ n) : ∃ nodes : Nodes ℝ, nodes.ExactTo n a (2 * n - 1) := by
  obtain ⟨z, hz, hroots⟩ := exists_roots a n
  refine ⟨_, exactTo_jacobi_roots hn hz (fun i => (hroots i).1) (fun i => ?_) []⟩
  obtain ⟨m, rfl⟩ : ∃ m, n = m + 1 := ⟨n - 1, by omega⟩
  rw [jacobi_eq_eval a m (sq_ne_one (hroots i).1)]
  exact (hroots i).2

end Cubature.Gauss
