import Cubature.Proofs.Gauss.Bisection
import Cubature.Proofs.Gauss.ClosedForm
import Cubature.Proofs.Gauss.Roots

/-!
# The matrix of the recurrence

The matrix whose eigenvalues are bracketed has the polynomial whose roots are refined as its
characteristic polynomial.

* `minor rows x k`: the product of the first `k` pivots. The minors of any tridiagonal matrix follow
  a three-term recurrence (`minor_add_two`), and the last one is its characteristic polynomial
  (`eval_charpoly_tridiagonal`).
* `signedMonic_add_two`, `minor_jacobiRows`: with its highest coefficient made one, the recurrence
  of `P_n^(a,0)` has the entries of `jacobiRows` as its coefficients, so both are the same.
* `regular_jacobiRows_iff`, `charpoly_jacobiRows`: a pivot is zero only at a root of some
  `P_k^(a,0)`. There are finitely many of these, and everywhere else the two polynomials agree.
-/

namespace Cubature.Gauss

open Polynomial
open scoped Scalar.Exact

/-! ## Leading minors -/

section Minors

variable {rows : List (Row ℝ)} {x : ℝ} {k : ℕ}

/-- The product of the first pivots. -/
noncomputable def minor (rows : List (Row ℝ)) (x : ℝ) (k : ℕ) : ℝ :=
  ((recurrence x rows).take k).prod

@[simp] theorem minor_zero : minor rows x 0 = 1 := rfl

theorem minor_succ (hk : k < rows.length) :
    minor rows x (k + 1) = minor rows x k * pivotAt rows x ⟨k, hk⟩ :=
  List.prod_take_succ _ _ (by simpa using hk)

theorem minor_length : minor rows x rows.length = (recurrence x rows).prod := by
  rw [minor, List.take_of_length_le (by simp)]

theorem minor_one (h : 0 < rows.length) : minor rows x 1 = rows[0].diagonal - x := by
  rw [minor_succ h, minor_zero, one_mul, pivotAt_of_val_eq_zero rfl]
  rfl

theorem pivotAt_ne_zero_of_minor (hk : k < rows.length) (h : minor rows x (k + 1) ≠ 0) :
    pivotAt rows x ⟨k, hk⟩ ≠ 0 := by
  rw [minor_succ hk] at h
  exact right_ne_zero_of_mul h

/-- The three-term recurrence of the minors. -/
theorem minor_add_two (hk : k + 1 < rows.length) (h : minor rows x (k + 1) ≠ 0) :
    minor rows x (k + 2) =
      (rows[k + 1].diagonal - x) * minor rows x (k + 1) -
        rows[k + 1].coupling * minor rows x k := by
  have hk' : k < rows.length := by omega
  have hq := pivotAt_ne_zero_of_minor hk' h
  have hprev := minor_succ (x := x) hk'
  have hnext := pivotAt_of_val_eq_succ (x := x) (j := ⟨k, hk'⟩) (k := ⟨k + 1, hk⟩) rfl
  rw [minor_succ hk, hnext, hprev]
  simp only [Fin.getElem_fin]
  field_simp

/-- No pivot is zero where no leading minor is. -/
theorem regular_iff_minor :
    Regular rows x ↔ ∀ k ≤ rows.length, minor rows x k ≠ 0 := by
  constructor
  · intro hreg k _
    refine List.prod_ne_zero fun hmem => ?_
    exact hreg 0 (List.mem_of_mem_take hmem) rfl
  · intro h q hq
    obtain ⟨k, hk, rfl⟩ := List.getElem_of_mem hq
    rw [length_recurrence] at hk
    exact pivotAt_ne_zero_of_minor hk (h (k + 1) hk)

/-- The last minor is the determinant. -/
theorem eval_charpoly_tridiagonal (hpos : ∀ row ∈ rows.tail, 0 < row.coupling)
    (hreg : Regular rows x) :
    (tridiagonal rows).charpoly.eval x = (-1) ^ rows.length * minor rows x rows.length := by
  -- The characteristic matrix is the shifted one with the opposite sign.
  have hneg : Matrix.scalar (Fin rows.length) x - tridiagonal rows =
      -(tridiagonal rows - x • (1 : Matrix (Fin rows.length) (Fin rows.length) ℝ)) := by
    rw [neg_sub, Matrix.smul_one_eq_diagonal, Matrix.scalar_apply]
  rw [Matrix.eval_charpoly, hneg, Matrix.det_neg, Fintype.card_fin, tridiagonal_sub_eq hpos hreg,
    Matrix.det_mul, Matrix.det_mul, Matrix.det_transpose, det_bidiagonal, Matrix.det_diagonal,
    minor_length, recurrence_eq_ofFn, List.prod_ofFn, one_mul, mul_one]

end Minors

/-! ## The matrix of the recurrence -/

section Rows

variable {a n k : ℕ} {x : ℝ}

theorem length_jacobiRows (a : ℝ) (n : ℕ) : (jacobiRows n a).length = n := by
  simp [jacobiRows]

/-- The first entry on the diagonal. It is a quotient by zero without an exponent. -/
theorem diagonal_zero (ha : 1 ≤ a) (h : 0 < (jacobiRows n (a : ℝ)).length) :
    (a + 2) * (jacobiRows n (a : ℝ))[0].diagonal = -a := by
  have ha' : (a : ℝ) ≠ 0 := by positivity
  simp only [jacobiRows, List.getElem_map, List.getElem_range]
  push_cast
  field_simp
  simp

/-- The later entries on the diagonal. -/
theorem diagonal_succ (h : k + 1 < (jacobiRows n (a : ℝ)).length) :
    (2 * k + 2 + a) * (2 * k + 4 + a) * (jacobiRows n (a : ℝ))[k + 1].diagonal = -(a : ℝ) ^ 2 := by
  have hc : (2 * (k + 1 : ℝ) + a) ≠ 0 := by positivity
  have hc' : (2 * (k + 1 : ℝ) + a + 2) ≠ 0 := by positivity
  simp only [jacobiRows, List.getElem_map, List.getElem_range]
  push_cast
  field_simp
  ring

theorem coupling_succ (h : k + 1 < (jacobiRows n (a : ℝ)).length) :
    (2 * k + 1 + a) * (2 * k + 2 + a) ^ 2 * (2 * k + 3 + a) *
        (jacobiRows n (a : ℝ))[k + 1].coupling =
      4 * (k + 1) ^ 2 * (k + 1 + a) ^ 2 := by
  have hc : (2 * (k + 1 : ℝ) + a) ≠ 0 := by positivity
  have hc₁ : (2 * k + 1 + a : ℝ) ≠ 0 := by positivity
  have hc₃ : (2 * k + 3 + a : ℝ) ≠ 0 := by positivity
  have hsq : (2 * (k + 1 : ℝ) + a) * (2 * (k + 1) + a) - 1 =
      (2 * k + 1 + a) * (2 * k + 3 + a) := by
    ring
  simp only [jacobiRows, List.getElem_map, List.getElem_range, if_neg (Nat.succ_ne_zero k),
    Scalar.Exact.ofNat_one]
  push_cast
  rw [hsq]
  field_simp

/-- The matrix is symmetric with entries that are not zero beside the diagonal. -/
theorem coupling_jacobiRows_pos : ∀ row ∈ (jacobiRows n (a : ℝ)).tail, 0 < row.coupling := by
  intro row hrow
  obtain ⟨k, hk, rfl⟩ := List.getElem_of_mem hrow
  rw [List.length_tail] at hk
  have hk' : k + 1 < (jacobiRows n (a : ℝ)).length := by omega
  have hcoup := coupling_succ hk'
  have hright : (0 : ℝ) < 4 * (k + 1) ^ 2 * (k + 1 + a) ^ 2 := by positivity
  rw [← hcoup] at hright
  rw [List.getElem_tail]
  exact pos_of_mul_pos_right hright (by positivity)

/-- The polynomial with its highest coefficient made one, and with the sign of the determinant of
the matrix shifted by `x`. -/
noncomputable def signedMonic (a k : ℕ) (x : ℝ) : ℝ :=
  (-1) ^ k * (jacobiPolynomial ℝ a k).eval x / (jacobiPolynomial ℝ a k).coeff k

theorem coeff_mul_signedMonic (a k : ℕ) (x : ℝ) :
    (jacobiPolynomial ℝ a k).coeff k * signedMonic a k x =
      (-1) ^ k * (jacobiPolynomial ℝ a k).eval x :=
  mul_div_cancel₀ _ (topCoeff_pos a k).ne'

theorem signedMonic_ne_zero_iff : signedMonic a k x ≠ 0 ↔ (jacobiPolynomial ℝ a k).eval x ≠ 0 := by
  have htop := (topCoeff_pos (K := ℝ) a k).ne'
  simp [signedMonic, htop]

theorem signedMonic_zero : signedMonic a 0 x = 1 := by
  simp [signedMonic, jacobiPolynomial]

theorem signedMonic_one (ha : 1 ≤ a) (h : 0 < (jacobiRows n (a : ℝ)).length) :
    signedMonic a 1 x = (jacobiRows n (a : ℝ))[0].diagonal - x := by
  have hdiag := diagonal_zero ha h
  have htop := coeff_mul_signedMonic a 1 x
  have hc : (a + 2 : ℝ) ≠ 0 := by positivity
  simp [jacobiPolynomial] at htop
  apply mul_left_cancel₀ hc
  linear_combination 2 * htop - hdiag

/-- The entries of the matrix are the coefficients of the recurrence. -/
theorem signedMonic_add_two (h : k + 1 < (jacobiRows n (a : ℝ)).length) :
    signedMonic a (k + 2) x =
      ((jacobiRows n (a : ℝ))[k + 1].diagonal - x) * signedMonic a (k + 1) x -
        (jacobiRows n (a : ℝ))[k + 1].coupling * signedMonic a k x := by
  have hdiag := diagonal_succ h
  have hcoup := coupling_succ h
  have hrec := eval_rec a k x
  have htop := topCoeff_succ (K := ℝ) a k
  have htop' := topCoeff_succ (K := ℝ) a (k + 1)
  have hprev := coeff_mul_signedMonic a k x
  have hlast := coeff_mul_signedMonic a (k + 1) x
  have hnext := coeff_mul_signedMonic a (k + 2) x
  have hc : (2 * (k + 2) * (k + 2 + a) * (2 * k + 2 + a) ^ 2 * (2 * k + 1 + a) *
      (jacobiPolynomial ℝ a (k + 2)).coeff (k + 2) : ℝ) ≠ 0 :=
    mul_ne_zero (by positivity) (topCoeff_pos a (k + 2)).ne'
  push_cast at htop'
  rw [pow_succ] at hlast
  rw [pow_add] at hnext
  set d := (jacobiRows n (a : ℝ))[k + 1].diagonal
  set b := (jacobiRows n (a : ℝ))[k + 1].coupling
  set c₁ := (jacobiPolynomial ℝ a (k + 1)).coeff (k + 1)
  apply mul_left_cancel₀ hc
  -- Each fact comes with the denominators it lacks; the highest coefficients drop out step by step.
  linear_combination
    2 * (k + 2) * (k + 2 + a) * (2 * k + 2 + a) ^ 2 * (2 * k + 1 + a) * hnext +
      (-1) ^ k * (2 * k + 1 + a) * (2 * k + 2 + a) * hrec -
      (2 * k + 1 + a) * (2 * k + 2 + a) ^ 2 *
        ((d - x) * signedMonic a (k + 1) x - b * signedMonic a k x) * htop' -
      (2 * k + 1 + a) * (2 * k + 2 + a) * (2 * k + 3 + a) * c₁ * signedMonic a (k + 1) x * hdiag +
      (2 * k + 1 + a) * (2 * k + 2 + a) * (2 * k + 3 + a) *
        (a ^ 2 + (2 * k + 2 + a) * (2 * k + 4 + a) * x) * hlast +
      (2 * k + 4 + a) * c₁ * signedMonic a k x * hcoup +
      2 * (k + 1) * (k + 1 + a) * (2 * k + 4 + a) * signedMonic a k x * htop +
      2 * (k + 1) * (k + 1 + a) * (2 * k + 4 + a) * (2 * k + 1 + a) * (2 * k + 2 + a) * hprev

/-- The minors are these polynomials, as long as none before is zero. -/
theorem minor_jacobiRows (ha : 1 ≤ a) (hk : k ≤ n)
    (hne : ∀ j < k, minor (jacobiRows n (a : ℝ)) x j ≠ 0) :
    minor (jacobiRows n (a : ℝ)) x k = signedMonic a k x := by
  have hlen := length_jacobiRows (a : ℝ) n
  induction k using Nat.twoStepInduction with
  | zero => rw [minor_zero, signedMonic_zero]
  | one => rw [minor_one (by omega), signedMonic_one ha]
  | more k ih₀ ih₁ =>
    have hprev := ih₀ (by omega) fun j hj => hne j (by omega)
    have hlast := ih₁ (by omega) fun j hj => hne j (by omega)
    rw [minor_add_two (by omega) (hne (k + 1) (by omega)), hprev, hlast,
      signedMonic_add_two (n := n) (by omega)]

/-- No pivot is zero where none of the polynomials is. -/
theorem regular_jacobiRows_iff (ha : 1 ≤ a) :
    Regular (jacobiRows n (a : ℝ)) x ↔ ∀ k ≤ n, (jacobiPolynomial ℝ a k).eval x ≠ 0 := by
  rw [regular_iff_minor, length_jacobiRows]
  constructor
  · intro hne k hk
    rw [← signedMonic_ne_zero_iff, ← minor_jacobiRows ha hk fun j hj => hne j (by omega)]
    exact hne k hk
  · intro hne k
    -- The first minor that is zero would be one of the polynomials.
    induction k using Nat.strong_induction_on with
    | h k ih =>
      intro hk
      rw [minor_jacobiRows ha hk fun j hj => ih j hj (by omega), signedMonic_ne_zero_iff]
      exact hne k hk

/-- The product of all pivots. -/
theorem prod_pivots_jacobiRows (ha : 1 ≤ a) (hreg : Regular (jacobiRows n (a : ℝ)) x) :
    (pivots x (jacobiRows n (a : ℝ))).prod = signedMonic a n x := by
  have hne := regular_iff_minor.mp hreg
  have hlen := length_jacobiRows (a : ℝ) n
  rw [pivots_eq_recurrence hreg, ← minor_length, hlen]
  exact minor_jacobiRows ha le_rfl fun j hj => hne j (by omega)

/-- The characteristic polynomial is the polynomial with the highest coefficient one. -/
theorem charpoly_jacobiRows (ha : 1 ≤ a) :
    C ((jacobiPolynomial ℝ a n).coeff n) * (tridiagonal (jacobiRows n (a : ℝ))).charpoly =
      jacobiPolynomial ℝ a n := by
  have hne : ∏ k ∈ Finset.range (n + 1), jacobiPolynomial ℝ a k ≠ 0 :=
    Finset.prod_ne_zero_iff.mpr fun k _ => jacobiPolynomial_ne_zero a k
  have hlen := length_jacobiRows (a : ℝ) n
  refine eq_of_infinite_eval_eq _ _
    ((finite_setOfPred_isRoot hne).infinite_compl.mono fun x hx => ?_)
  have hreg : Regular (jacobiRows n (a : ℝ)) x := by
    refine (regular_jacobiRows_iff ha).mpr fun k hk hzero => hx ?_
    show eval x _ = 0
    rw [eval_prod]
    exact Finset.prod_eq_zero (Finset.mem_range.mpr (by omega)) hzero
  have hminor := minor_jacobiRows ha le_rfl fun j hj => regular_iff_minor.mp hreg j (by omega)
  show eval x _ = eval x _
  rw [eval_mul, eval_C, eval_charpoly_tridiagonal coupling_jacobiRows_pos hreg, hlen, hminor,
    mul_left_comm, coeff_mul_signedMonic, ← mul_assoc, ← mul_pow]
  norm_num

end Rows

/-! ## The eigenvalues -/

section Eigenvalues

variable {a n : ℕ}

/-- The roots of the polynomial in ascending order. -/
theorem exists_ascending_roots (a n : ℕ) : ∃ z : Fin n → ℝ, StrictMono z ∧
    (∀ i, z i ∈ Set.Ioo (-1 : ℝ) 1) ∧
    jacobiPolynomial ℝ a n = C ((jacobiPolynomial ℝ a n).coeff n) * ∏ i, (X - C (z i)) := by
  obtain ⟨r, hr, hroots⟩ := exists_roots a n
  have hcard : (Finset.univ.image r).card = n := by
    rw [Finset.card_image_of_injective _ hr, Finset.card_univ, Fintype.card_fin]
  let z := (Finset.univ.image r).orderEmbOfFin hcard
  have hz (i : Fin n) : z i ∈ Set.Ioo (-1 : ℝ) 1 ∧ (jacobiPolynomial ℝ a n).eval (z i) = 0 := by
    obtain ⟨j, -, hj⟩ := Finset.mem_image.mp ((Finset.univ.image r).orderEmbOfFin_mem hcard i)
    show (Finset.univ.image r).orderEmbOfFin hcard i ∈ _ ∧ _
    rw [← hj]
    exact hroots j
  refine ⟨z, z.strictMono, fun i => (hz i).1, ?_⟩
  exact jacobiPolynomial_eq_nodal z.injective fun i => (hz i).2

theorem roots_prod_X_sub_C_ofFn (z : Fin n → ℝ) :
    (∏ i, (X - C (z i))).roots = (List.ofFn z : Multiset ℝ) := by
  have hmap := roots_multiset_prod_X_sub_C (Finset.univ.val.map z)
  rwa [Multiset.map_map, Fin.univ_val_map z] at hmap

/-- A number that the count points to on the way is found. -/
theorem abs_eigenvalue_sub_le {rows : List (Row ℝ)} {k : ℕ} {root : ℝ}
    (hroot : root ∈ Set.Ioo (-1 : ℝ) 1)
    (hcount : ∀ steps < 64, (k < sturmCount rows (middle (bracket rows k steps (-1) 1)) ↔
      root < middle (bracket rows k steps (-1) 1))) :
    |eigenvalue rows k - root| ≤ 1 / 2 ^ 64 := by
  have hwithin : Within (bracket rows k 64 (-1) 1) root :=
    within_bracket ⟨hroot.1.le, hroot.2.le⟩ hcount
  rw [eigenvalue_eq_middle]
  refine hwithin.abs_middle_sub_le.trans_eq ?_
  rw [width_bracket]
  norm_num

theorem jacobi_value_eq_eval (hn : 1 ≤ n) (x : ℝ) :
    (jacobi n (a : ℝ) x).value = (jacobiPolynomial ℝ a n).eval x := by
  obtain ⟨m, rfl⟩ : ∃ m, n = m + 1 := ⟨n - 1, by omega⟩
  simp only [jacobi, jacobiPair_eq_eval, Nat.add_sub_cancel]

/-- Where no pivot is zero, the product of the pivots is the computed polynomial up to a factor. So
the eigenvalues of the matrix are the zeros of that polynomial, `n` different ones inside. Where no
pivot is zero they are counted, and bisection finds each of them to `2 ^ -64`. -/
theorem eigenvalues_are_zeros (hn : 1 ≤ n) (ha : 1 ≤ a) :
    (∀ x, Regular (jacobiRows n (a : ℝ)) x → (pivots x (jacobiRows n (a : ℝ))).prod =
      (-1) ^ n * 2 ^ n / (2 * n + a).choose n * (jacobi n (a : ℝ) x).value) ∧
    ∃ z : Fin n → ℝ, StrictMono z ∧ (∀ i, z i ∈ Set.Ioo (-1 : ℝ) 1) ∧
      (∀ x, (jacobi n (a : ℝ) x).value = 0 ↔ x ∈ Set.range z) ∧
      (tridiagonal (jacobiRows n (a : ℝ))).charpoly = ∏ i, (X - C (z i)) ∧
      (∀ x, Regular (jacobiRows n (a : ℝ)) x →
        sturmCount (jacobiRows n (a : ℝ)) x = (List.ofFn z).countP (· < x)) ∧
      ∀ k : Fin n,
        (∀ steps < 64, Regular (jacobiRows n (a : ℝ))
          (middle (bracket (jacobiRows n (a : ℝ)) k steps (-1) 1))) →
        |eigenvalue (jacobiRows n (a : ℝ)) k - z k| ≤ 1 / 2 ^ 64 := by
  set rows := jacobiRows n (a : ℝ)
  obtain ⟨z, hz, hin, hfactors⟩ := exists_ascending_roots a n
  have htop : (jacobiPolynomial ℝ a n).coeff n ≠ 0 := (topCoeff_pos a n).ne'
  have hchar : (tridiagonal rows).charpoly = ∏ i, (X - C (z i)) :=
    mul_left_cancel₀ (C_ne_zero.mpr htop) ((charpoly_jacobiRows ha).trans hfactors)
  have hcount (x : ℝ) (hx : Regular rows x) :
      sturmCount rows x = (List.ofFn z).countP (· < x) := by
    rw [sturmCount_eq_countP coupling_jacobiRows_pos hx, hchar, roots_prod_X_sub_C_ofFn,
      Multiset.coe_countP]
  refine ⟨fun x hx => ?_, z, hz, hin, fun x => ?_, hchar, hcount, fun k hk => ?_⟩
  · have hlead := topCoeff_mul_pow (K := ℝ) a n
    rw [prod_pivots_jacobiRows ha hx, jacobi_value_eq_eval hn, signedMonic, ← hlead]
    field_simp
  · rw [jacobi_value_eq_eval hn, hfactors, eval_mul, eval_C, eval_prod, mul_eq_zero,
      Finset.prod_eq_zero_iff]
    simp [htop, sub_eq_zero, eq_comm]
  · refine abs_eigenvalue_sub_le (hin k) fun steps hsteps => ?_
    have hsorted : (List.ofFn z).Pairwise (· ≤ ·) :=
      List.pairwise_ofFn.mpr fun i j hij => hz.monotone hij.le
    have hlen : k.val < (List.ofFn z).length := by simp
    rw [hcount _ (hk steps hsteps), lt_countP_iff hsorted _ hlen, List.getElem_ofFn]

/-- The ends of a bracket, after so many halvings of `[-1, 1]`. -/
theorem exists_dyadic_bracket (rows : List (Row ℝ)) (k steps : ℕ) :
    ∃ m : ℤ, bracket rows k steps (-1) 1 = ((m : ℝ) / 2 ^ steps, (m + 2 : ℝ) / 2 ^ steps) := by
  induction steps with
  | zero => exact ⟨-1, by norm_num [bracket]⟩
  | succ steps ih =>
    obtain ⟨m, hm⟩ := ih
    rw [bracket_succ, hm, bisected]
    have hmiddle : middle ((m : ℝ) / 2 ^ steps, (m + 2) / 2 ^ steps) =
        (2 * m + 2) / 2 ^ (steps + 1) := by
      rw [middle, pow_succ]
      field_simp
      ring
    split
    · refine ⟨2 * m, Prod.ext ?_ ?_⟩
      · push_cast
        rw [pow_succ]
        field_simp
      · rw [hmiddle]
        push_cast
        rfl
    · refine ⟨2 * m + 2, Prod.ext ?_ ?_⟩
      · rw [hmiddle]
        push_cast
        rfl
      · push_cast
        rw [pow_succ]
        field_simp
        ring

/-- The roots of the first two polynomials for `1 - x` are a third and irrational, so no pivot is
zero at a whole number of halves of halves. -/
theorem regular_of_dyadic (m : ℤ) (s : ℕ) : Regular (jacobiRows 2 ((1 : ℕ) : ℝ)) (m / 2 ^ s) := by
  -- The roots are minus a third and two irrational numbers, none of them a dyadic fraction.
  have hthird : (3 * m + 2 ^ s : ℤ) ≠ 0 := by
    intro h
    have hdvd : (3 : ℤ) ∣ 2 ^ s := ⟨-m, by linarith⟩
    have htwo := Int.prime_three.dvd_of_dvd_pow hdvd
    omega
  have hfirst : (3 * (m / 2 ^ s) + 1 : ℝ) ≠ 0 := by
    intro h
    field_simp at h
    exact hthird (by exact_mod_cast h)
  have hsecond : (5 * (m / 2 ^ s) + 1 : ℝ) ^ 2 ≠ 6 := by
    intro h
    have hsix : Irrational √6 := irrational_sqrt_ofNat_iff.mpr (by decide +kernel)
    refine hsix ⟨|5 * (m / 2 ^ s) + 1|, ?_⟩
    rw [← h, Real.sqrt_sq_eq_abs]
    push_cast
    rfl
  refine (regular_jacobiRows_iff le_rfl).mpr fun k hk => ?_
  interval_cases k
  · simp [jacobiPolynomial]
  · have hvalue : (jacobiPolynomial ℝ 1 1).eval (m / 2 ^ s : ℝ) = (3 * (m / 2 ^ s) + 1) / 2 := by
      simp [jacobiPolynomial]
      ring
    rw [hvalue]
    intro h
    apply hfirst
    linear_combination 2 * h
  · have hvalue : (jacobiPolynomial ℝ 1 2).eval (m / 2 ^ s : ℝ) =
        (5 * (m / 2 ^ s) ^ 2 + 2 * (m / 2 ^ s) - 1) / 2 := by
      simp [jacobiPolynomial]
      ring
    rw [hvalue]
    intro h
    apply hsecond
    linear_combination 10 * h

/-- The pivots at the middle, and both eigenvalues, of the two rows for `1 - x`. -/
theorem eigenvalues_are_zeros_pair :
    let rows := jacobiRows 2 ((1 : ℕ) : ℝ)
    (pivots 0 rows).prod = -1 / 5 ∧
      ∃ z : Fin 2 → ℝ, StrictMono z ∧ (∀ i, (jacobi 2 ((1 : ℕ) : ℝ) (z i)).value = 0) ∧
        ∀ k : Fin 2, |eigenvalue rows k - z k| ≤ 1 / 2 ^ 64 := by
  intro rows
  obtain ⟨hprod, z, hz, -, hzero, -, -, hnear⟩ :=
    eigenvalues_are_zeros (n := 2) (a := 1) (by decide) (by decide)
  refine ⟨?_, z, hz, fun i => (hzero (z i)).mpr ⟨i, rfl⟩, fun k => hnear k fun steps _ => ?_⟩
  · have hreg := regular_of_dyadic 0 0
    simp only [Int.cast_zero, zero_div] at hreg
    rw [hprod 0 hreg]
    simp [jacobi, jacobiPair, Nat.choose]
    norm_num
  · obtain ⟨m, hm⟩ := exists_dyadic_bracket rows k steps
    have hmiddle : middle (bracket rows k steps (-1) 1) = ((m + 1 : ℤ) : ℝ) / 2 ^ steps := by
      rw [hm, middle]
      push_cast
      field_simp
      ring
    rw [hmiddle]
    exact regular_of_dyadic (m + 1) steps

end Eigenvalues

end Cubature.Gauss
