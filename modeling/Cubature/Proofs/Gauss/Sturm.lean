import Cubature.Gauss.Tridiagonal
import Cubature.Proofs.Scalar.Exact
import Mathlib.Analysis.Matrix.Spectrum
import Mathlib.LinearAlgebra.QuadraticForm.Signature

/-!
# Counting eigenvalues by signs

The pivots of `A - x` are the diagonal of a factorization of it, so by Sylvester's law of inertia as
many of them are negative as `A` has eigenvalues below `x`.

* `ncard_neg_eq_of_congruent`: two diagonal matrices that are congruent have as many negative
  entries.
* `recurrence x rows`: the pivots with nothing put in the place of a zero; where none is zero
  (`Regular`) they are the pivots (`pivots_eq_recurrence`) and they factor the matrix
  (`tridiagonal_sub_eq`).
* `sturmCount_eq_countP`: the number of roots of the characteristic polynomial of `tridiagonal rows`
  that are less than `x`. The roots are simple (`nodup_roots_tridiagonal`).
-/

namespace Cubature.Gauss

open Matrix
open scoped Scalar Scalar.Exact

/-! ## Inertia -/

section Inertia

variable {ι : Type} [Fintype ι] [DecidableEq ι] {A B C : Matrix ι ι ℝ} {v w : ι → ℝ}

/-- A matrix that is congruent to a diagonal one has its quadratic form. -/
private theorem equivalent_weightedSumSquares (hunit : IsUnit B.det)
    (hA : A = Bᵀ * diagonal w * B) :
    A.toQuadraticForm'.Equivalent (QuadraticMap.weightedSumSquares ℝ w) := by
  have hinv : Invertible B := B.invertibleOfIsUnitDet hunit
  refine ⟨⟨B.toLinearEquiv' hinv, fun u => ?_⟩⟩
  have happ : B.toLinearEquiv' hinv u = B *ᵥ u := rfl
  calc QuadraticMap.weightedSumSquares ℝ w (B *ᵥ u)
      = (B *ᵥ u) ⬝ᵥ (diagonal w *ᵥ (B *ᵥ u)) := by
        rw [QuadraticMap.weightedSumSquares_apply, dotProduct]
        refine Finset.sum_congr rfl fun i _ => ?_
        rw [mulVec_diagonal, smul_eq_mul]
        ring
    _ = u ⬝ᵥ (A *ᵥ u) := by
        rw [hA, ← mulVec_mulVec, ← mulVec_mulVec, dotProduct_mulVec u, vecMul_transpose]
    _ = A.toQuadraticForm' u := (toLinearMap₂'_apply' A u u).symm

/-- Sylvester's law of inertia, for the negative entries. -/
theorem ncard_neg_eq_of_congruent (hB : IsUnit B.det) (hC : IsUnit C.det)
    (h : Bᵀ * diagonal v * B = Cᵀ * diagonal w * C) :
    {i | v i < 0}.ncard = {i | w i < 0}.ncard := by
  have hv := equivalent_weightedSumSquares hB (rfl : Bᵀ * diagonal v * B = _)
  have hw := equivalent_weightedSumSquares hC h
  rw [← QuadraticForm.sigNeg_of_equiv_weightedSumSquares hv,
    QuadraticForm.sigNeg_of_equiv_weightedSumSquares hw]

end Inertia

/-! ## The recurrence of the pivots -/

/-- The pivots that follow the pivot `before`, with nothing put in the place of a zero. -/
noncomputable def recurrenceAfter (x before : ℝ) : List (Row ℝ) → List ℝ
  | [] => []
  | row :: rows =>
    let q := row.diagonal - x - row.coupling / before
    q :: recurrenceAfter x q rows

/-- The pivots `d₀ - x` and `dₖ - x - bₖ / qₖ₋₁`, with nothing put in the place of a zero. -/
noncomputable def recurrence (x : ℝ) : List (Row ℝ) → List ℝ
  | [] => []
  | row :: rows => (row.diagonal - x) :: recurrenceAfter x (row.diagonal - x) rows

/-- No pivot at `x` is zero. -/
def Regular (rows : List (Row ℝ)) (x : ℝ) : Prop := ∀ q ∈ recurrence x rows, q ≠ 0

theorem patchPivot_of_ne_zero {q : ℝ} (h : q ≠ 0) : patchPivot q = q := by
  simp [patchPivot, Scalar.isZero, h]

theorem pivotsAfter_eq_recurrenceAfter (x : ℝ) (rows : List (Row ℝ)) : ∀ before : ℝ,
    (∀ q ∈ recurrenceAfter x before rows, q ≠ 0) →
      pivotsAfter x before rows = recurrenceAfter x before rows := by
  induction rows with
  | nil => intro before _; rfl
  | cons row rows ih =>
    intro before h
    rw [recurrenceAfter, List.forall_mem_cons] at h
    rw [pivotsAfter, recurrenceAfter, patchPivot_of_ne_zero h.1, ih _ h.2]

theorem pivots_eq_recurrence {rows : List (Row ℝ)} {x : ℝ} (h : Regular rows x) :
    pivots x rows = recurrence x rows := by
  cases rows with
  | nil => rfl
  | cons row rows =>
    rw [Regular, recurrence, List.forall_mem_cons] at h
    rw [pivots, recurrence, patchPivot_of_ne_zero h.1, pivotsAfter_eq_recurrenceAfter x rows _ h.2]

@[simp] theorem length_recurrenceAfter (x : ℝ) (rows : List (Row ℝ)) : ∀ before : ℝ,
    (recurrenceAfter x before rows).length = rows.length := by
  induction rows with
  | nil => intro before; rfl
  | cons row rows ih => intro before; simp [recurrenceAfter, ih]

@[simp] theorem length_recurrence (x : ℝ) (rows : List (Row ℝ)) :
    (recurrence x rows).length = rows.length := by
  cases rows <;> simp [recurrence]

theorem getElem_recurrenceAfter (x : ℝ) (rows : List (Row ℝ)) : ∀ (before : ℝ) (k : ℕ)
    (hk : k < rows.length) (hnew : k < (recurrenceAfter x before rows).length)
    (hold : k < (before :: recurrenceAfter x before rows).length),
    (recurrenceAfter x before rows)[k] = rows[k].diagonal - x -
      rows[k].coupling / (before :: recurrenceAfter x before rows)[k] := by
  induction rows with
  | nil => intro before k hk; simp at hk
  | cons row rows ih =>
    intro before k hk hnew hold
    cases k with
    | zero => simp [recurrenceAfter]
    | succ k =>
      have hstep := ih (row.diagonal - x - row.coupling / before) k (by simpa using hk)
        (by simpa using hk) (by simp at hk ⊢; omega)
      simpa [recurrenceAfter] using hstep

/-- The `k`-th pivot at `x`. -/
noncomputable def pivotAt (rows : List (Row ℝ)) (x : ℝ) (k : Fin rows.length) : ℝ :=
  (recurrence x rows).get (k.cast (length_recurrence x rows).symm)

theorem recurrence_eq_ofFn (rows : List (Row ℝ)) (x : ℝ) :
    recurrence x rows = List.ofFn (pivotAt rows x) := by
  refine List.ext_getElem (by simp) fun k hk hk' => ?_
  rw [List.getElem_ofFn]
  rfl

variable {rows : List (Row ℝ)} {x : ℝ}

theorem pivotAt_ne_zero (h : Regular rows x) (k : Fin rows.length) : pivotAt rows x k ≠ 0 :=
  h _ (List.get_mem _ _)

theorem pivotAt_of_val_eq_zero {k : Fin rows.length} (hk : k.val = 0) :
    pivotAt rows x k = rows[k].diagonal - x := by
  obtain ⟨k, hlt⟩ := k
  obtain rfl : k = 0 := hk
  cases rows with
  | nil => simp at hlt
  | cons row rows => rfl

/-- Every later pivot from the one before. -/
theorem pivotAt_of_val_eq_succ {j k : Fin rows.length} (hk : j.val + 1 = k.val) :
    pivotAt rows x k = rows[k].diagonal - x - rows[k].coupling / pivotAt rows x j := by
  obtain ⟨j, hj⟩ := j
  obtain ⟨k, hlt⟩ := k
  obtain rfl : j + 1 = k := hk
  cases rows with
  | nil => simp at hlt
  | cons row rows =>
    exact getElem_recurrenceAfter x rows (row.diagonal - x) j (by simpa using hlt)
      (by simpa using hlt) (by simp at hlt ⊢; omega)

/-! ## The matrix -/

/-- The symmetric tridiagonal matrix of the rows. -/
noncomputable def tridiagonal (rows : List (Row ℝ)) :
    Matrix (Fin rows.length) (Fin rows.length) ℝ := fun i j =>
  if i = j then rows[i].diagonal
  else if i.val + 1 = j.val then √rows[j].coupling
  else if j.val + 1 = i.val then √rows[i].coupling
  else 0

theorem isHermitian_tridiagonal (rows : List (Row ℝ)) : (tridiagonal rows).IsHermitian := by
  refine IsHermitian.ext fun i j => ?_
  rw [star_trivial, tridiagonal, tridiagonal]
  by_cases hij : i = j
  · subst hij
    rfl
  · have hval : i.val ≠ j.val := fun h => hij (Fin.ext h)
    rw [if_neg hij, if_neg (Ne.symm hij)]
    split <;> split <;> first | rfl | omega

theorem tridiagonal_of_val_eq_succ {i j : Fin rows.length} (h : i.val + 1 = j.val) :
    tridiagonal rows i j = √rows[j].coupling := by
  have hne : i ≠ j := fun heq => by simp [heq] at h
  rw [tridiagonal, if_neg hne, if_pos h]

theorem tridiagonal_of_succ_lt {i j : Fin rows.length} (h : i.val + 1 < j.val) :
    tridiagonal rows i j = 0 := by
  have hne : i ≠ j := fun heq => by simp [heq] at h
  rw [tridiagonal, if_neg hne, if_neg (by omega), if_neg (by omega)]

/-- Ones on the diagonal and `r` above it. -/
def bidiagonal {n : ℕ} (r : Fin n → ℝ) : Matrix (Fin n) (Fin n) ℝ := fun k i =>
  if k = i then 1 else if k.val + 1 = i.val then r i else 0

section Bidiagonal

variable {n : ℕ} (q r : Fin n → ℝ)

theorem bidiagonal_self (i : Fin n) : bidiagonal r i i = 1 := if_pos rfl

theorem bidiagonal_of_val_eq_succ {k i : Fin n} (h : k.val + 1 = i.val) :
    bidiagonal r k i = r i := by
  have hne : k ≠ i := fun heq => by simp [heq] at h
  rw [bidiagonal, if_neg hne, if_pos h]

theorem bidiagonal_eq_zero {k i : Fin n} (hself : k.val ≠ i.val) (hnext : k.val + 1 ≠ i.val) :
    bidiagonal r k i = 0 := by
  have hne : k ≠ i := fun heq => hself (congrArg Fin.val heq)
  rw [bidiagonal, if_neg hne, if_neg hnext]

theorem det_bidiagonal : (bidiagonal r).det = 1 := by
  have hupper : (bidiagonal r).IsUpperTriangular := by
    intro i j hji
    have hlt : j.val < i.val := hji
    exact bidiagonal_eq_zero r (by omega) (by omega)
  rw [det_of_isUpperTriangular hupper]
  exact Finset.prod_eq_one fun i _ => bidiagonal_self r i

theorem congruence_apply (i j : Fin n) :
    ((bidiagonal r)ᵀ * diagonal q * bidiagonal r) i j =
      ∑ k, bidiagonal r k i * (q k * bidiagonal r k j) := by
  rw [mul_apply]
  refine Finset.sum_congr rfl fun k _ => ?_
  rw [mul_diagonal, transpose_apply, mul_assoc]

theorem congruence_comm (i j : Fin n) :
    ((bidiagonal r)ᵀ * diagonal q * bidiagonal r) i j =
      ((bidiagonal r)ᵀ * diagonal q * bidiagonal r) j i := by
  rw [congruence_apply, congruence_apply]
  exact Finset.sum_congr rfl fun k _ => by ring

/-- Two different columns meet in the row of the earlier one only. -/
theorem congruence_apply_of_lt {i j : Fin n} (hij : i.val < j.val) :
    ((bidiagonal r)ᵀ * diagonal q * bidiagonal r) i j = q i * bidiagonal r i j := by
  rw [congruence_apply, Finset.sum_eq_single i]
  · rw [bidiagonal_self, one_mul]
  · intro k _ hki
    have hval : k.val ≠ i.val := fun h => hki (Fin.ext h)
    by_cases hnext : k.val + 1 = i.val
    · rw [bidiagonal_eq_zero r (by omega) (by omega : k.val + 1 ≠ j.val), mul_zero, mul_zero]
    · rw [bidiagonal_eq_zero r hval hnext, zero_mul]
  · simp

theorem congruence_apply_first {i : Fin n} (hi : i.val = 0) :
    ((bidiagonal r)ᵀ * diagonal q * bidiagonal r) i i = q i := by
  rw [congruence_apply, Finset.sum_eq_single i]
  · rw [bidiagonal_self, one_mul, mul_one]
  · intro k _ hki
    have hval : k.val ≠ i.val := fun h => hki (Fin.ext h)
    rw [bidiagonal_eq_zero r hval (by omega), zero_mul]
  · simp

theorem congruence_apply_self {p i : Fin n} (hi : p.val + 1 = i.val) :
    ((bidiagonal r)ᵀ * diagonal q * bidiagonal r) i i = q i + r i * (q p * r i) := by
  have hne : i ≠ p := fun h => by simp [h] at hi
  rw [congruence_apply, Finset.sum_eq_add_of_mem i p (Finset.mem_univ _) (Finset.mem_univ _) hne]
  · rw [bidiagonal_self, one_mul, mul_one, bidiagonal_of_val_eq_succ r hi]
  · rintro k - ⟨hki, hkp⟩
    have hval : k.val ≠ i.val := fun h => hki (Fin.ext h)
    have hnext : k.val + 1 ≠ i.val := fun h => hkp (Fin.ext (by omega))
    rw [bidiagonal_eq_zero r hval hnext, zero_mul]

end Bidiagonal

/-! ## The factorization and the count -/

/-- What is above the diagonal of the factor of the matrix shifted by `x`. -/
noncomputable def ratios (rows : List (Row ℝ)) (x : ℝ) (i : Fin rows.length) : ℝ :=
  if h : 0 < i.val then √rows[i].coupling / pivotAt rows x ⟨i.val - 1, by omega⟩ else 0

theorem ratios_of_val_eq_succ {j i : Fin rows.length} (hij : j.val + 1 = i.val) :
    ratios rows x i = √rows[i].coupling / pivotAt rows x j := by
  have hprev : (⟨i.val - 1, by omega⟩ : Fin rows.length) = j := Fin.ext (by simp; omega)
  rw [ratios, dif_pos (by omega), hprev]

theorem coupling_pos (hpos : ∀ row ∈ rows.tail, 0 < row.coupling) {j i : Fin rows.length}
    (hij : j.val + 1 = i.val) : 0 < rows[i].coupling := by
  obtain ⟨i, hlt⟩ := i
  obtain rfl : j.val + 1 = i := hij
  cases rows with
  | nil => simp at hlt
  | cons row rows => exact hpos _ (List.getElem_mem (by simpa using hlt))

/-- The diagonal of the product of the factors is the one of the shifted matrix. -/
private theorem congruence_diagonal (hpos : ∀ row ∈ rows.tail, 0 < row.coupling)
    (hreg : Regular rows x) (i : Fin rows.length) :
    ((bidiagonal (ratios rows x))ᵀ * diagonal (pivotAt rows x) * bidiagonal (ratios rows x)) i i =
      rows[i].diagonal - x := by
  rcases Nat.eq_zero_or_pos i.val with hi | hi
  · rw [congruence_apply_first _ _ hi, pivotAt_of_val_eq_zero hi]
  · obtain ⟨p, hp⟩ : ∃ p : Fin rows.length, p.val + 1 = i.val :=
      ⟨⟨i.val - 1, by omega⟩, by simp; omega⟩
    have hq := pivotAt_ne_zero hreg p
    have hsq := Real.sq_sqrt (coupling_pos hpos hp).le
    rw [congruence_apply_self _ _ hp, ratios_of_val_eq_succ hp, pivotAt_of_val_eq_succ hp]
    field_simp
    rw [hsq]
    ring

private theorem congruence_above (hreg : Regular rows x) {i j : Fin rows.length}
    (hij : i.val < j.val) :
    ((bidiagonal (ratios rows x))ᵀ * diagonal (pivotAt rows x) * bidiagonal (ratios rows x)) i j =
      tridiagonal rows i j := by
  rw [congruence_apply_of_lt _ _ hij]
  by_cases hnext : i.val + 1 = j.val
  · rw [tridiagonal_of_val_eq_succ hnext, bidiagonal_of_val_eq_succ _ hnext,
      ratios_of_val_eq_succ hnext, mul_div_cancel₀ _ (pivotAt_ne_zero hreg i)]
  · rw [tridiagonal_of_succ_lt (by omega), bidiagonal_eq_zero _ (by omega) hnext, mul_zero]

/-- The pivots are the diagonal of a factorization of the shifted matrix. -/
theorem tridiagonal_sub_eq (hpos : ∀ row ∈ rows.tail, 0 < row.coupling) (hreg : Regular rows x) :
    tridiagonal rows - x • (1 : Matrix (Fin rows.length) (Fin rows.length) ℝ) =
      (bidiagonal (ratios rows x))ᵀ * diagonal (pivotAt rows x) * bidiagonal (ratios rows x) := by
  ext i j
  rw [Matrix.sub_apply, Matrix.smul_apply, one_apply, smul_eq_mul]
  rcases lt_trichotomy i.val j.val with hij | hij | hij
  · have hne : i ≠ j := fun h => by simp [h] at hij
    rw [congruence_above hreg hij, if_neg hne, mul_zero, sub_zero]
  · obtain rfl : i = j := Fin.ext hij
    rw [congruence_diagonal hpos hreg, tridiagonal, if_pos rfl, if_pos rfl, mul_one]
  · have hne : i ≠ j := fun h => by simp [h] at hij
    have hcomm : tridiagonal rows i j = tridiagonal rows j i :=
      (isHermitian_tridiagonal rows).apply j i
    rw [congruence_comm, congruence_above hreg hij, if_neg hne, mul_zero, sub_zero, hcomm]

/-- The spectral theorem, shifted by `x`. -/
theorem tridiagonal_sub_eq_spectral (rows : List (Row ℝ)) (x : ℝ) :
    ∃ B : Matrix (Fin rows.length) (Fin rows.length) ℝ, IsUnit B.det ∧
      tridiagonal rows - x • (1 : Matrix (Fin rows.length) (Fin rows.length) ℝ) =
        Bᵀ * diagonal (fun i => (isHermitian_tridiagonal rows).eigenvalues i - x) * B := by
  have hA := isHermitian_tridiagonal rows
  have hspec := hA.spectral_theorem
  have hunitary := mem_unitaryGroup_iff.1 hA.eigenvectorUnitary.2
  rw [Unitary.conjStarAlgAut_apply] at hspec
  generalize (hA.eigenvectorUnitary : Matrix (Fin rows.length) (Fin rows.length) ℝ) = U
    at hspec hunitary
  have hstar : star U = Uᵀ := by
    rw [star_eq_conjTranspose, conjTranspose_eq_transpose_of_trivial]
  have hshift : diagonal (fun i => hA.eigenvalues i - x) =
      diagonal (RCLike.ofReal ∘ hA.eigenvalues) - x • (1 : Matrix _ _ ℝ) := by
    rw [smul_one_eq_diagonal, diagonal_sub]
    rfl
  refine ⟨star U, ?_, ?_⟩
  · exact isUnit_det_of_left_inverse hunitary
  · rw [hshift, hstar, transpose_transpose, ← hstar, mul_sub, sub_mul, ← hspec, Matrix.mul_smul,
      mul_one, Matrix.smul_mul, hunitary]

private theorem countP_map_univ {ι : Type} [Fintype ι] (f : ι → ℝ) (x : ℝ) :
    (Finset.univ.val.map f).countP (· < x) = {i | f i < x}.ncard := by
  rw [Multiset.countP_map, Set.ncard_eq_toFinset_card', Set.toFinset_ofPred]
  rfl

theorem sturmCount_eq_ncard (hreg : Regular rows x) :
    sturmCount rows x = {i | pivotAt rows x i < 0}.ncard := by
  rw [sturmCount, pivots_eq_recurrence hreg, recurrence_eq_ofFn, ← countP_map_univ,
    Fin.univ_val_map, Multiset.coe_countP]
  refine List.countP_congr fun q _ => ?_
  rw [Scalar.Exact.ofNat_zero]
  rfl

/-- Sturm's theorem: as many eigenvalues are less than `x` as are counted at `x`. -/
theorem sturmCount_eq_countP (hpos : ∀ row ∈ rows.tail, 0 < row.coupling) (hreg : Regular rows x) :
    sturmCount rows x = (tridiagonal rows).charpoly.roots.countP (· < x) := by
  obtain ⟨B, hB, hspec⟩ := tridiagonal_sub_eq_spectral rows x
  have hfactor := tridiagonal_sub_eq hpos hreg
  have hdet : IsUnit (bidiagonal (ratios rows x)).det := by
    rw [det_bidiagonal]
    exact isUnit_one
  rw [sturmCount_eq_ncard hreg, ncard_neg_eq_of_congruent hdet hB (hfactor.symm.trans hspec),
    (isHermitian_tridiagonal rows).roots_charpoly_eq_eigenvalues]
  have hcount := countP_map_univ (isHermitian_tridiagonal rows).eigenvalues x
  simp only [sub_neg]
  exact hcount.symm

/-! ## The roots are simple -/

/-- An eigenvector is determined by its first entry: every row gives the next. -/
theorem eq_zero_of_mulVec_eq (hpos : ∀ row ∈ rows.tail, 0 < row.coupling) {μ : ℝ}
    {u : Fin rows.length → ℝ} (heigen : tridiagonal rows *ᵥ u = μ • u)
    (hfirst : ∀ i, i.val = 0 → u i = 0) : u = 0 := by
  have hall : ∀ k : ℕ, ∀ i : Fin rows.length, i.val ≤ k → u i = 0 := by
    intro k
    induction k with
    | zero => exact fun i hi => hfirst i (Nat.le_zero.1 hi)
    | succ k ih =>
      intro i hi
      rcases Nat.lt_or_ge i.val (k + 1) with hlt | hge
      · exact ih i (by omega)
      obtain ⟨p, hp⟩ : ∃ p : Fin rows.length, p.val + 1 = i.val :=
        ⟨⟨i.val - 1, by omega⟩, by simp; omega⟩
      have hrow := congrFun heigen p
      rw [mulVec, dotProduct, Finset.sum_eq_single i, Pi.smul_apply, ih p (by omega), smul_zero,
        tridiagonal_of_val_eq_succ hp] at hrow
      · have hsqrt := Real.sqrt_pos.2 (coupling_pos hpos hp)
        exact (mul_eq_zero.1 hrow).resolve_left hsqrt.ne'
      · intro j _ hji
        have hval : j.val ≠ i.val := fun h => hji (Fin.ext h)
        rcases Nat.lt_or_ge j.val i.val with hj | hj
        · rw [ih j (by omega), mul_zero]
        · rw [tridiagonal_of_succ_lt (by omega), zero_mul]
      · simp
  exact funext fun i => hall i.val i le_rfl

/-- Two eigenvectors of one eigenvalue differ by a factor: a combination of them has zero as its
first entry. -/
theorem smul_eq_smul_of_mulVec_eq (hpos : ∀ row ∈ rows.tail, 0 < row.coupling) {μ : ℝ}
    {u v : Fin rows.length → ℝ} (hu : tridiagonal rows *ᵥ u = μ • u)
    (hv : tridiagonal rows *ᵥ v = μ • v) (first : Fin rows.length) (hfirst : first.val = 0) :
    u first • v = v first • u := by
  rw [← sub_eq_zero]
  refine eq_zero_of_mulVec_eq hpos (μ := μ) ?_ fun k hk => ?_
  · rw [mulVec_sub, mulVec_smul, mulVec_smul, hu, hv, smul_sub, smul_comm (u first),
      smul_comm (v first)]
  · obtain rfl : k = first := Fin.ext (hk.trans hfirst.symm)
    show u k * v k - v k * u k = 0
    ring

theorem card_roots_tridiagonal (rows : List (Row ℝ)) :
    (tridiagonal rows).charpoly.roots.card = rows.length := by
  rw [(isHermitian_tridiagonal rows).roots_charpoly_eq_eigenvalues, Multiset.card_map,
    Finset.card_val, Finset.card_univ, Fintype.card_fin]

/-- The eigenvalues are simple. -/
theorem nodup_roots_tridiagonal (hpos : ∀ row ∈ rows.tail, 0 < row.coupling) :
    (tridiagonal rows).charpoly.roots.Nodup := by
  have hA := isHermitian_tridiagonal rows
  rw [hA.roots_charpoly_eq_eigenvalues]
  refine Multiset.Nodup.map (fun i j hij => ?_) Finset.univ.nodup
  have hij : hA.eigenvalues i = hA.eigenvalues j := hij
  by_contra hne
  have hvw : inner ℝ (hA.eigenvectorBasis i) (hA.eigenvectorBasis j) = 0 :=
    hA.eigenvectorBasis.orthonormal.2 hne
  have hvv := hA.eigenvectorBasis.orthonormal.1 i
  have hww := hA.eigenvectorBasis.orthonormal.1 j
  have hveigen := hA.mulVec_eigenvectorBasis i
  have hweigen := hA.mulVec_eigenvectorBasis j
  rw [← hij] at hweigen
  generalize hA.eigenvectorBasis i = v at *
  generalize hA.eigenvectorBasis j = w at *
  let first : Fin rows.length := ⟨0, i.pos⟩
  have hdependent : v first • w = w first • v :=
    WithLp.ofLp_injective 2 (smul_eq_smul_of_mulVec_eq hpos hveigen hweigen first rfl)
  have hwfirst : w first = 0 := by
    have hinner := congrArg (inner ℝ v) hdependent
    rw [inner_smul_right, inner_smul_right, hvw, real_inner_self_eq_norm_sq, hvv] at hinner
    linarith
  have hwzero : w = 0 := by
    refine WithLp.ofLp_injective 2 (eq_zero_of_mulVec_eq hpos hweigen fun k hk => ?_)
    obtain rfl : k = first := Fin.ext hk
    exact hwfirst
  rw [hwzero, norm_zero] at hww
  exact zero_ne_one hww

end Cubature.Gauss
