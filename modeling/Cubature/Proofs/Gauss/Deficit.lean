import Cubature.Proofs.Gauss.Exact
import Mathlib.Algebra.Polynomial.Degree.IsMonicOfDegree

/-!
# The degree that a rule misses

A rule of `n` nodes that integrates all degrees up to `2 n - 1` misses degree `2 n`. The square of
the polynomial with the nodes as its roots vanishes in the sum and is positive under the integral
(`weighted_nodal_sq_pos`), and any other monic polynomial of that degree differs from it by one that
is integrated. So the sum is too small, over `[-1, 1]` (`ExactTo.sum_eval_lt`) and after the rule is
moved to `[0, 1]` (`ExactTo.sum_unit_pow_lt`).
-/

namespace Cubature.Gauss.Nodes

open Polynomial
open scoped Nat Scalar.Exact

variable {nodes : Nodes ℝ} {n alpha : ℕ}

/-- The monic polynomial with the nodes as its roots. -/
noncomputable def nodal (nodes : Nodes ℝ) : ℝ[X] :=
  ((nodes.locations : Multiset ℝ).map fun x => X - C x).prod

theorem isMonicOfDegree_nodal (nodes : Nodes ℝ) :
    IsMonicOfDegree nodes.nodal nodes.locations.length where
  natDegree_eq := natDegree_multiset_prod_X_sub_C_eq_card _
  monic := monic_multiset_prod_of_monic _ _ fun x _ => monic_X_sub_C x

theorem eval_nodal {x : ℝ} (hx : x ∈ nodes.locations) : nodes.nodal.eval x = 0 := by
  have hroot : x ∈ nodes.nodal.roots := by rwa [nodal, roots_multiset_prod_X_sub_C]
  exact isRoot_of_mem_roots hroot

/-- Its square has the sum zero. -/
theorem sum_nodal_sq (nodes : Nodes ℝ) :
    weightedSum nodes.pairs (fun x => (nodes.nodal ^ 2).eval x) = 0 := by
  refine List.sum_eq_zero fun y hy => ?_
  obtain ⟨p, hp, rfl⟩ := List.mem_map.mp hy
  dsimp only
  rw [eval_pow, eval_nodal (List.of_mem_zip hp).1, zero_pow two_ne_zero, zero_mul]

/-- Its square has a positive integral. -/
theorem weighted_nodal_sq_pos (nodes : Nodes ℝ) (alpha : ℕ) :
    0 < weighted alpha (nodes.nodal ^ 2) := by
  refine weighted_pos alpha (pow_ne_zero 2 nodes.isMonicOfDegree_nodal.ne_zero) fun x _ => ?_
  rw [eval_pow]
  exact sq_nonneg _

section Deficit

variable (h : nodes.ExactTo n alpha (2 * n - 1)) (hn : 1 ≤ n)

include h hn

/-- The sum is too small for every monic polynomial of degree `2 n`. -/
theorem ExactTo.sum_eval_lt {q : ℝ[X]} (hq : IsMonicOfDegree q (2 * n)) :
    weightedSum nodes.pairs (fun x => q.eval x) < interval ℝ ((1 - X) ^ alpha * q) := by
  have hsquare : IsMonicOfDegree (nodes.nodal ^ 2) (2 * n) := by
    rw [mul_comm 2 n, ← h.length_locations]
    exact nodes.isMonicOfDegree_nodal.pow 2
  have hlower : (q - nodes.nodal ^ 2).natDegree ≤ 2 * n - 1 := by
    have hlt := hq.natDegree_sub_lt (by omega) hsquare
    omega
  have hpos := nodes.weighted_nodal_sq_pos alpha
  rw [weighted_eq_interval] at hpos
  have hsplit : ∀ x, q.eval x = (q - nodes.nodal ^ 2).eval x + (nodes.nodal ^ 2).eval x := by
    intro x
    rw [eval_sub, sub_add_cancel]
  calc weightedSum nodes.pairs (fun x => q.eval x)
      = interval ℝ ((1 - X) ^ alpha * (q - nodes.nodal ^ 2)) := by
        simp only [hsplit]
        rw [weightedSum_add, h.sum_eval _ hlower, sum_nodal_sq, add_zero]
    _ < interval ℝ ((1 - X) ^ alpha * (q - nodes.nodal ^ 2)) +
          interval ℝ ((1 - X) ^ alpha * nodes.nodal ^ 2) := lt_add_of_pos_right _ hpos
    _ = interval ℝ ((1 - X) ^ alpha * q) := by rw [← map_add, ← mul_add, sub_add_cancel]

/-- The sum is too small for the power `2 n`. -/
theorem ExactTo.sum_pow_lt :
    weightedSum nodes.pairs (· ^ (2 * n)) < interval ℝ ((1 - X) ^ alpha * X ^ (2 * n)) := by
  have hlt := h.sum_eval_lt hn (isMonicOfDegree_X_pow ℝ (2 * n))
  simpa only [eval_pow, eval_X] using hlt

/-- On `[0, 1]` too. -/
theorem ExactTo.sum_unit_pow_lt : weightedSum (nodes.unitPairs alpha) (· ^ (2 * n)) <
    alpha ! * (2 * n)! / (alpha + 2 * n + 1)! := by
  have hmonic : IsMonicOfDegree ((1 + X : ℝ[X]) ^ (2 * n)) (2 * n) := by
    have hpow := (isMonicOfDegree_X_add_one (1 : ℝ)).pow (2 * n)
    rwa [one_mul, C_1, add_comm] at hpow
  have hlt := h.sum_eval_lt hn hmonic
  have hterm : ∀ x : ℝ, (1 / 2 * (1 + x)) ^ (2 * n) =
      (1 / 2) ^ (2 * n) * ((1 + X : ℝ[X]) ^ (2 * n)).eval x := by
    intro x
    rw [mul_pow, eval_pow, eval_add, eval_one, eval_X]
  calc weightedSum (nodes.unitPairs alpha) (· ^ (2 * n))
      = (1 / 2) ^ (alpha + 2 * n + 1) *
          weightedSum nodes.pairs (fun x => ((1 + X : ℝ[X]) ^ (2 * n)).eval x) := by
        rw [weightedSum_unitPairs]
        simp only [hterm]
        rw [weightedSum_const_mul, ← mul_assoc, ← pow_add, add_right_comm]
    _ < (1 / 2) ^ (alpha + 2 * n + 1) *
          interval ℝ ((1 - X) ^ alpha * (1 + X) ^ (2 * n)) :=
        mul_lt_mul_of_pos_left hlt (by positivity)
    _ = alpha ! * (2 * n)! / (alpha + 2 * n + 1)! := half_pow_mul_interval alpha (2 * n)

end Deficit

end Cubature.Gauss.Nodes
