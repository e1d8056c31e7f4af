import Cubature.Proofs.Gauss.Sturm
import Mathlib.NumberTheory.Real.Irrational

/-!
# Bisection for an eigenvalue

A bisection keeps the half of the bracket that the count at its middle points to.

* `bisected`: the half that a step keeps. It is half as wide (`width_bisected`), and holds what the
  bracket held if the count is right at the middle (`Within.bisected`).
* `bracket_eq_iterate`: a bisection is so many steps, which halve the width as often
  (`width_bracket`) and lose nothing (`within_bracket`).
* `bisection_finds_roots`: the count at `x` is the number of roots less than `x`, so it is more than
  `k` where the `k`-th smallest root is less than `x` (`lt_countP_iff`).
-/

namespace Cubature.Gauss

open scoped Scalar Scalar.Exact

/-! ## One step -/

section Step

variable {K : Type} [Field K] [LinearOrder K] (rows : List (Row K)) (k : ℕ)

/-- The middle of a bracket. -/
def middle (b : K × K) : K := (b.1 + b.2) / 2

/-- The half of a bracket that is kept. -/
def bisected (b : K × K) : K × K :=
  if k < sturmCount rows (middle b) then (b.1, middle b) else (middle b, b.2)

/-- The middle as it is computed. -/
theorem half_mul_eq_middle (lo hi : K) :
    @OfNat.ofNat K 1 Scalar.instOfNat / @OfNat.ofNat K 2 Scalar.instOfNat * (lo + hi) =
      middle (lo, hi) := by
  rw [Scalar.Exact.ofNat_one, middle, one_div_mul_eq_div]

theorem bracket_eq_iterate (steps : ℕ) : ∀ lo hi : K,
    bracket rows k steps lo hi = (bisected rows k)^[steps] (lo, hi) := by
  induction steps with
  | zero => intro lo hi; rfl
  | succ steps ih =>
    intro lo hi
    have hmid := half_mul_eq_middle lo hi
    rw [Function.iterate_succ_apply, bisected, ← hmid]
    show (if _ then _ else _) = _
    split <;> exact ih _ _

theorem bracket_succ (steps : ℕ) (lo hi : K) :
    bracket rows k (steps + 1) lo hi = bisected rows k (bracket rows k steps lo hi) := by
  rw [bracket_eq_iterate, bracket_eq_iterate, Function.iterate_succ_apply']

theorem eigenvalue_eq_middle : eigenvalue rows k = middle (bracket rows k 64 (-1) 1) := by
  rw [← Scalar.Exact.ofNat_one (K := K)]
  exact half_mul_eq_middle _ _

variable {rows k}

/-- The bracket holds a number. -/
def Within (b : K × K) (root : K) : Prop := b.1 ≤ root ∧ root ≤ b.2

theorem Within.bisected {b : K × K} {root : K} (h : Within b root)
    (hcount : k < sturmCount rows (middle b) ↔ root < middle b) :
    Within (bisected rows k b) root := by
  rw [Gauss.bisected]
  by_cases hk : k < sturmCount rows (middle b)
  · rw [if_pos hk]
    exact ⟨h.1, (hcount.1 hk).le⟩
  · rw [if_neg hk]
    exact ⟨not_lt.1 (mt hcount.2 hk), h.2⟩

variable [IsStrictOrderedRing K]

theorem width_bisected (b : K × K) :
    (bisected rows k b).2 - (bisected rows k b).1 = (b.2 - b.1) / 2 := by
  rw [bisected, middle]
  split
  · show (b.1 + b.2) / 2 - b.1 = (b.2 - b.1) / 2
    ring
  · show b.2 - (b.1 + b.2) / 2 = (b.2 - b.1) / 2
    ring

theorem Within.abs_middle_sub_le {b : K × K} {root : K} (h : Within b root) :
    |middle b - root| ≤ (b.2 - b.1) / 2 := by
  obtain ⟨hlo, hhi⟩ := h
  rw [middle, abs_le]
  constructor <;> linarith

/-! ## A run -/

theorem width_bracket (steps : ℕ) (lo hi : K) :
    (bracket rows k steps lo hi).2 - (bracket rows k steps lo hi).1 = (hi - lo) / 2 ^ steps := by
  induction steps with
  | zero => simp [bracket]
  | succ steps ih => rw [bracket_succ, width_bisected, ih, div_div, pow_succ]

omit [IsStrictOrderedRing K] in
/-- A number is kept as long as every count on the way points to its side. -/
theorem within_bracket {lo hi root : K} (h : Within (lo, hi) root) {steps : ℕ}
    (hcount : ∀ j < steps, (k < sturmCount rows (middle (bracket rows k j lo hi)) ↔
      root < middle (bracket rows k j lo hi))) :
    Within (bracket rows k steps lo hi) root := by
  induction steps with
  | zero => exact h
  | succ steps ih =>
    rw [bracket_succ]
    exact (ih fun j hj => hcount j (by omega)).bisected (hcount steps (by omega))

end Step

/-! ## The result -/

/-- In ascending order, an entry is less than `x` if more entries than stand before it are. -/
theorem lt_countP_iff {roots : List ℝ} (hsorted : roots.Pairwise (· ≤ ·)) (x : ℝ) :
    ∀ {k : ℕ} (hk : k < roots.length), k < roots.countP (· < x) ↔ roots[k] < x := by
  induction roots with
  | nil => intro k hk; simp at hk
  | cons root roots ih =>
    intro k hk
    rw [List.pairwise_cons] at hsorted
    obtain ⟨hleast, hsorted⟩ := hsorted
    by_cases hroot : root < x
    · rw [List.countP_cons_of_pos (by simpa using hroot)]
      cases k with
      | zero => simpa using hroot
      | succ k =>
        rw [Nat.add_lt_add_iff_right, List.getElem_cons_succ]
        exact ih hsorted (by simpa using hk)
    · -- None of the others is less than `x` either.
      have hnone : (root :: roots).countP (· < x) = 0 := by
        rw [List.countP_eq_zero]
        intro r hr
        rcases List.mem_cons.1 hr with rfl | hr
        · simpa using hroot
        · have hle := hleast r hr
          simp only [decide_eq_true_eq]
          linarith
      have hle : x ≤ (root :: roots)[k] := by
        have hr := List.getElem_mem hk
        have hnot := List.countP_eq_zero.1 hnone _ hr
        simpa using hnot
      rw [hnone]
      constructor
      · intro h
        omega
      · intro h
        linarith

/-- The characteristic polynomial of a symmetric tridiagonal matrix with positive couplings has as
many roots as the matrix has rows, all of them simple. As many of them are less than `x` as are
counted at `x`, if no pivot is zero there. If they lie in `(-1, 1)` and no pivot is zero at the
middles the bisection visits, it finds each of them to `2 ^ -64`. -/
theorem bisection_finds_roots (rows : List (Row ℝ)) (hpos : ∀ row ∈ rows.tail, 0 < row.coupling) :
    let roots := (tridiagonal rows).charpoly.roots
    roots.card = rows.length ∧ roots.Nodup ∧
    (∀ x, Regular rows x → sturmCount rows x = roots.countP (· < x)) ∧
    ((∀ root ∈ roots, -1 < root ∧ root < 1) → ∀ k < rows.length,
      (∀ steps < 64, Regular rows (middle (bracket rows k steps (-1) 1))) →
      ∃ root, (roots.sort (· ≤ ·))[k]? = some root ∧ |eigenvalue rows k - root| ≤ 1 / 2 ^ 64) := by
  intro roots
  have hcard : roots.card = rows.length := card_roots_tridiagonal rows
  refine ⟨hcard, nodup_roots_tridiagonal hpos, fun x hx => sturmCount_eq_countP hpos hx, ?_⟩
  intro hin k hk hreg
  have hlen : (roots.sort (· ≤ ·)).length = rows.length := by rw [Multiset.length_sort, hcard]
  have hk' : k < (roots.sort (· ≤ ·)).length := by omega
  refine ⟨(roots.sort (· ≤ ·))[k], List.getElem?_eq_getElem hk', ?_⟩
  generalize hroot : (roots.sort (· ≤ ·))[k] = root
  -- The count is right at every middle: more than `k` exactly if the `k`-th root is below.
  have hmem : root ∈ roots := by
    rw [← hroot, ← Multiset.mem_sort (r := (· ≤ ·))]
    exact List.getElem_mem hk'
  have hcount : ∀ x, Regular rows x → (k < sturmCount rows x ↔ root < x) := by
    intro x hx
    have hsort := congrArg (Multiset.countP (· < x)) (roots.sort_eq (· ≤ ·))
    rw [sturmCount_eq_countP hpos hx, ← hroot,
      ← lt_countP_iff (roots.pairwise_sort (· ≤ ·)) x hk', ← Multiset.coe_countP, hsort]
  have hwithin : Within (bracket rows k 64 (-1) 1) root :=
    within_bracket ⟨(hin root hmem).1.le, (hin root hmem).2.le⟩ fun j hj => hcount _ (hreg j hj)
  calc |eigenvalue rows k - root|
      ≤ ((bracket rows k 64 (-1) 1).2 - (bracket rows k 64 (-1) 1).1) / 2 := by
        rw [eigenvalue_eq_middle]
        exact hwithin.abs_middle_sub_le
    _ = 1 / 2 ^ 64 := by
        rw [width_bracket]
        norm_num

theorem middle_ratCast (b : ℚ × ℚ) : middle ((b.1 : ℝ), (b.2 : ℝ)) = (middle b : ℚ) := by
  rw [middle, middle]
  push_cast
  rfl

/-- The middles are rational, if the ends of the first bracket are. -/
theorem exists_rat_bracket (rows : List (Row ℝ)) (k : ℕ) (lo hi : ℚ) (steps : ℕ) :
    ∃ b : ℚ × ℚ, bracket rows k steps (lo : ℝ) hi = ((b.1 : ℝ), (b.2 : ℝ)) := by
  induction steps with
  | zero => exact ⟨(lo, hi), rfl⟩
  | succ steps ih =>
    obtain ⟨b, hb⟩ := ih
    rw [bracket_succ, hb, bisected, middle_ratCast]
    split
    · exact ⟨(b.1, middle b), rfl⟩
    · exact ⟨(middle b, b.2), rfl⟩

/-- With one irrational number on the diagonal no pivot is zero at a rational one. -/
theorem regular_of_irrational {d : ℝ} (hd : Irrational d) (c x : ℚ) :
    Regular [⟨d, 0⟩, ⟨d, c ^ 2⟩] x := by
  have hfirst : d - x ≠ 0 := sub_ne_zero.2 (hd.ne_rat x)
  have hsecond : d - x - c ^ 2 / (d - x) ≠ 0 := by
    intro h
    have hsq : (d - x) ^ 2 = (c : ℝ) ^ 2 := by
      field_simp at h
      linarith
    rcases sq_eq_sq_iff_eq_or_eq_neg.1 hsq with hd' | hd'
    · exact hd.ne_rat (x + c) (by push_cast; linarith)
    · exact hd.ne_rat (x - c) (by push_cast; linarith)
  intro q hq
  simp only [recurrence, recurrenceAfter, List.mem_cons, List.not_mem_nil, or_false] at hq
  rcases hq with rfl | rfl
  · exact hfirst
  · exact hsecond

theorem eq_or_eq_of_mem_roots {d c r : ℝ} (hc : 0 ≤ c)
    (hr : r ∈ (tridiagonal [⟨d, 0⟩, ⟨d, c ^ 2⟩]).charpoly.roots) : r = d + c ∨ r = d - c := by
  have hroot := (Polynomial.mem_roots'.1 hr).2
  have hpoly := Matrix.charpoly_fin_two (tridiagonal [⟨d, 0⟩, ⟨d, c ^ 2⟩])
  rw [Polynomial.IsRoot, hpoly] at hroot
  simp [tridiagonal, Matrix.trace_fin_two, Matrix.det_fin_two, Real.sqrt_sq hc] at hroot
  have hsq : (r - d) ^ 2 = c ^ 2 := by linarith
  rcases sq_eq_sq_iff_eq_or_eq_neg.1 hsq with h | h
  · exact .inl (by linarith)
  · exact .inr (by linarith)

theorem bisection_finds_roots_pair :
    let rows : List (Row ℝ) := [⟨√2 / 2, 0⟩, ⟨√2 / 2, (1 / 4 : ℚ) ^ 2⟩]
    ∃ root, ((tridiagonal rows).charpoly.roots.sort (· ≤ ·))[1]? = some root ∧
      |eigenvalue rows 1 - root| ≤ 1 / 2 ^ 64 := by
  intro rows
  have hirrational : Irrational (√2 / 2) := irrational_sqrt_two.div_natCast two_ne_zero
  have hpos : ∀ row ∈ rows.tail, 0 < row.coupling := by
    simp [rows]
  refine (bisection_finds_roots rows hpos).2.2.2 ?_ 1 (by simp [rows]) ?_
  · intro root hroot
    have hlow : 1 < √2 := Real.lt_sqrt_of_sq_lt (by norm_num)
    have hhigh : √2 < 3 / 2 := (Real.sqrt_lt' (by norm_num)).2 (by norm_num)
    rcases eq_or_eq_of_mem_roots (by norm_num) hroot with rfl | rfl <;> norm_num <;>
      constructor <;> linarith
  · intro steps _
    obtain ⟨b, hb⟩ := exists_rat_bracket rows 1 (-1) 1 steps
    rw [Rat.cast_neg, Rat.cast_one] at hb
    rw [hb, middle_ratCast]
    exact regular_of_irrational hirrational _ _

end Cubature.Gauss
