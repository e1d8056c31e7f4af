import Cubature.Gauss.Jacobi
import Cubature.Proofs.Gauss.Bisection

/-!
# Brackets and their order

What a bisection keeps for any rows at all: couplings of either sign, zero pivots, and counts that
do not ascend.

* `Brackets rows k first b`: what a bracket `b` keeps of the `first` one. A step keeps it
  (`Brackets.bisected`), and so does a run (`brackets_bracket`).
* `InOrder b b'`: they have the same bracket, or that of the first lies below. The greater position
  is pointed upwards wherever the smaller one is, so a step keeps this (`InOrder.bisected`), and so
  does a run (`inOrder_bracket`).
* `bisection_ascends`: what is found is the middle of such a bracket, and it ascends with its
  position. So do the starts of the searches for the nodes of a rule.
-/

namespace Cubature.Gauss

open scoped Scalar Scalar.Exact

variable {K : Type} [Field K] [LinearOrder K] {rows : List (Row K)} {k k' : ℕ}
  {first b b' : K × K}

/-! ## One bisection -/

/-- What a bracket keeps of the first one. An end that was moved was moved by the count there. -/
structure Brackets (rows : List (Row K)) (k : ℕ) (first b : K × K) : Prop where
  lower : first.1 ≤ b.1
  proper : b.1 < b.2
  upper : b.2 ≤ first.2
  count_le : b.1 ≠ first.1 → sturmCount rows b.1 ≤ k
  lt_count : b.2 ≠ first.2 → k < sturmCount rows b.2

theorem Brackets.refl (h : b.1 < b.2) : Brackets rows k b b :=
  ⟨le_rfl, h, le_rfl, fun hne => absurd rfl hne, fun hne => absurd rfl hne⟩

variable [IsStrictOrderedRing K]

theorem lt_middle (h : b.1 < b.2) : b.1 < middle b := left_lt_add_div_two.mpr h

theorem middle_lt (h : b.1 < b.2) : middle b < b.2 := add_div_two_lt_right.mpr h

theorem Brackets.bisected (h : Brackets rows k first b) :
    Brackets rows k first (bisected rows k b) := by
  have hlow := lt_middle h.proper
  have hhigh := middle_lt h.proper
  rw [Gauss.bisected]
  by_cases hk : k < sturmCount rows (middle b)
  · rw [if_pos hk]
    exact ⟨h.lower, hlow, hhigh.le.trans h.upper, h.count_le, fun _ => hk⟩
  · rw [if_neg hk]
    exact ⟨h.lower.trans hlow.le, hhigh, h.upper, fun _ => not_lt.mp hk, h.lt_count⟩

/-- The middle is inside the first bracket. -/
theorem Brackets.middle_mem (h : Brackets rows k first b) :
    first.1 < middle b ∧ middle b < first.2 :=
  ⟨h.lower.trans_lt (lt_middle h.proper), (middle_lt h.proper).trans_le h.upper⟩

/-- A step stays in the bracket. -/
theorem bisected_subset (rows : List (Row K)) (k : ℕ) (h : b.1 < b.2) :
    b.1 ≤ (bisected rows k b).1 ∧ (bisected rows k b).2 ≤ b.2 := by
  have hkept : Brackets rows k b (bisected rows k b) := (Brackets.refl h).bisected
  exact ⟨hkept.lower, hkept.upper⟩

theorem brackets_bracket {lo hi : K} (h : lo < hi) (steps : ℕ) :
    Brackets rows k (lo, hi) (bracket rows k steps lo hi) := by
  induction steps with
  | zero => exact Brackets.refl h
  | succ steps ih =>
    rw [bracket_succ]
    exact ih.bisected

/-! ## Two bisections -/

/-- The brackets are the same, or the first lies below the second. -/
def InOrder (b b' : K × K) : Prop := b = b' ∨ b.2 ≤ b'.1

theorem InOrder.bisected (h : InOrder b b') (hle : k ≤ k') (hb : b.1 < b.2) (hb' : b'.1 < b'.2) :
    InOrder (bisected rows k b) (bisected rows k' b') := by
  rcases h with rfl | hbelow
  · -- The count at the common middle is the same for both.
    rw [Gauss.bisected, Gauss.bisected]
    by_cases hk' : k' < sturmCount rows (middle b)
    · rw [if_pos hk', if_pos (hle.trans_lt hk')]
      exact .inl rfl
    · rw [if_neg hk']
      split
      · exact .inr le_rfl
      · exact .inl rfl
  · refine .inr ?_
    calc (Gauss.bisected rows k b).2
        ≤ b.2 := (bisected_subset rows k hb).2
      _ ≤ b'.1 := hbelow
      _ ≤ (Gauss.bisected rows k' b').1 := (bisected_subset rows k' hb').1

theorem inOrder_bracket {lo hi : K} (h : lo < hi) (hle : k ≤ k') (steps : ℕ) :
    InOrder (bracket rows k steps lo hi) (bracket rows k' steps lo hi) := by
  induction steps with
  | zero => exact .inl rfl
  | succ steps ih =>
    rw [bracket_succ, bracket_succ]
    exact ih.bisected hle (brackets_bracket h steps).proper (brackets_bracket h steps).proper

theorem InOrder.middle_le (h : InOrder b b') (hb : b.1 < b.2) (hb' : b'.1 < b'.2) :
    middle b ≤ middle b' := by
  rcases h with rfl | hbelow
  · exact le_rfl
  · calc middle b
        ≤ b.2 := (middle_lt hb).le
      _ ≤ b'.1 := hbelow
      _ ≤ middle b' := (lt_middle hb').le

/-! ## The results -/

theorem eigenvalue_mono (rows : List (Row K)) : Monotone (eigenvalue rows) := by
  intro k k' hle
  have hfirst : (-1 : K) < 1 := neg_lt_self one_pos
  rw [eigenvalue_eq_middle, eigenvalue_eq_middle]
  exact (inOrder_bracket hfirst hle 64).middle_le (brackets_bracket hfirst 64).proper
    (brackets_bracket hfirst 64).proper

omit [IsStrictOrderedRing K] in
theorem locations_jacobiNodes (limits : Limits K) (n : ℕ) (a scale : K) :
    (jacobiNodes limits n a scale).locations =
      ((List.range n).map (eigenvalue (jacobiRows n a))).map fun start =>
        (limits.refine (jacobi n a) start).root := by
  simp [jacobiNodes, jacobiNode]

/-- On any rows, the `k`-th number that is found is strictly between `-1` and `1`, and it is the
middle of a bracket of width `2 ^ -63`. More than `k` are counted at the upper end of that bracket,
unless it is still `1`, and at most `k` at the lower end, unless it is still `-1`. The numbers
ascend with `k`, and so the searches for the nodes of a rule start in ascending order. -/
theorem bisection_ascends :
    (∀ (rows : List (Row K)) (k : ℕ), ∃ lo hi : K,
      eigenvalue rows k = (lo + hi) / 2 ∧ hi - lo = 1 / 2 ^ 63 ∧
      (-1 < eigenvalue rows k ∧ eigenvalue rows k < 1) ∧
      (hi ≠ 1 → k < sturmCount rows hi) ∧ (lo ≠ -1 → sturmCount rows lo ≤ k)) ∧
    (∀ rows : List (Row K), Monotone (eigenvalue rows)) ∧
    ∀ (limits : Limits K) (n : ℕ) (a scale : K),
      let starts := (List.range n).map (eigenvalue (jacobiRows n a))
      starts.Pairwise (· ≤ ·) ∧ (jacobiNodes limits n a scale).locations =
        starts.map fun start => (limits.refine (jacobi n a) start).root := by
  refine ⟨fun rows k => ?_, eigenvalue_mono, fun limits n a scale => ⟨?_, ?_⟩⟩
  · have hkept : Brackets rows k (-1, 1) (bracket rows k 64 (-1) 1) :=
      brackets_bracket (neg_lt_self one_pos) 64
    refine ⟨_, _, eigenvalue_eq_middle rows k, ?_, ?_, hkept.lt_count, hkept.count_le⟩
    · rw [width_bracket]
      norm_num
    · rw [eigenvalue_eq_middle]
      exact hkept.middle_mem
  · exact List.pairwise_map.mpr (List.pairwise_le_range.imp fun hle => eigenvalue_mono _ hle)
  · exact locations_jacobiNodes limits n a scale

/-- With a negative coupling the count descends from two to one on the way, and a pivot at `1 / 4`,
where the last bracket of the second position ends, is zero. -/
theorem bisection_ascends_crossing :
    let rows : List (Row ℚ) := [⟨-1 / 2, 0⟩, ⟨1 / 2, -3 / 16⟩]
    sturmCount rows 0 < sturmCount rows (-3 / 8) ∧ -Scalar.epsilon ∈ pivots (1 / 4) rows ∧
      sturmCount rows (1 / 4 - 1 / 2 ^ 63) ≤ 1 ∧ 1 < sturmCount rows (1 / 4) ∧
      eigenvalue rows 0 ≤ eigenvalue rows 1 := by
  intro rows
  obtain ⟨hbracket, hmono, -⟩ := bisection_ascends (K := ℚ)
  obtain ⟨lo, hi, hmiddle, hwidth, -, habove, hbelow⟩ := hbracket rows 1
  have hvalue : eigenvalue rows 1 = 1 / 4 - 1 / 2 ^ 64 := by decide +kernel
  rw [hvalue] at hmiddle
  obtain rfl : hi = 1 / 4 := by linarith
  obtain rfl : lo = 1 / 4 - 1 / 2 ^ 63 := by linarith
  refine ⟨by decide +kernel, by decide +kernel, hbelow ?_, habove ?_, hmono rows zero_le_one⟩ <;>
    norm_num

end Cubature.Gauss
