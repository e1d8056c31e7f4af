import Cubature.Proofs.Registry.Request
import Cubature.Proofs.Rule.Index
import Cubature.Proofs.Side.Mapping
import Mathlib.Data.List.Forall2

/-!
# Views that agree

A rule can be read point by point, as a list of points, as a matrix, and through its weighted sums.
All of these cut the same flat list, some of them without looking at the number of points.

* `Rule.arbitrary_isOk_iff`, `Rule.arbitrary_eq_error_iff`: coordinates and weights make a rule
  exactly if their numbers fit, and the first number that does not is reported.
* `Rule.Shows`, `Rule.WellShaped.exists_shows`: if the numbers fit, all views show one sequence of
  points and weights, nothing is left out, and nothing lies past the end.
-/

namespace Cubature

open scoped Scalar

/-! ## Blocks of a list -/

/-- A list that is long enough is put together from its blocks again. -/
theorem flatten_blocksAfter {α : Type} {size count : ℕ} {xs : List α}
    (h : count * size ≤ xs.length) :
    (blocksAfter size count xs #[]).flatten = xs.take (count * size) := by
  induction count generalizing xs with
  | zero => simp [blocksAfter]
  | succ count ih =>
    have hrest : count * size ≤ (xs.drop size).length := by
      rw [List.length_drop]
      exact Nat.le_sub_of_add_le (Nat.succ_mul .. ▸ h)
    rw [blocksAfter_succ, List.flatten_cons, ih hrest, Nat.succ_mul, Nat.add_comm, List.take_add]

/-- A list is traversed with the results that its entries give. -/
theorem mapM_of_forall₂ {β γ : Type} {f : β → Except Failure γ} {l : List β} {l' : List γ}
    (h : List.Forall₂ (fun b c => f b = .ok c) l l') : l.mapM f = .ok l' := by
  induction h with
  | nil => rfl
  | cons hb _ ih =>
    rw [mapM_cons, hb, ih]
    rfl

theorem zip_ofFn {α β : Type} {n : ℕ} (f : Fin n → α) (g : Fin n → β) :
    (List.ofFn f).zip (List.ofFn g) = List.ofFn fun i => (f i, g i) := by
  apply List.ext_getElem <;> simp

/-- A sequence is folded from its first entry to its last. -/
theorem foldl_ofFn {α β : Type} {n : ℕ} (f : Fin n → α) (g : β → α → β) (b : β) :
    (List.ofFn f).foldl g b = Fin.foldl n (fun b i => g b (f i)) b := by
  induction n generalizing b with
  | zero => rfl
  | succ n ih => rw [List.ofFn_succ, List.foldl_cons, ih, Fin.foldl_succ]

namespace Rule

/-! ## Supplied rules -/

/-- What is reported of supplied coordinates and weights: the first number that does not fit, in the
order dimension, coordinates, weights. The number of coordinates to expect must be a word. -/
inductive Misfit (dim npoints numCoords : ℕ) (numWeights : Option ℕ) : Failure → Prop where
  | dimension (hdim : dim = 0) : Misfit dim npoints numCoords numWeights
      (.rejected (.shapeMismatch "parametric dimension" 1 0))
  | size (hdim : 1 ≤ dim) (hsize : Size.wordCount ≤ npoints * dim) :
      Misfit dim npoints numCoords numWeights (.aborted .overflow)
  | locations (hdim : 1 ≤ dim) (hsize : npoints * dim < Size.wordCount)
      (hcoords : numCoords ≠ npoints * dim) : Misfit dim npoints numCoords numWeights
      (.rejected (.shapeMismatch "locations" (npoints * dim) numCoords))
  | weights {n : ℕ} (hdim : 1 ≤ dim) (hsize : npoints * dim < Size.wordCount)
      (hcoords : numCoords = npoints * dim) (hn : numWeights = some n) (hweights : n ≠ npoints) :
      Misfit dim npoints numCoords numWeights
      (.rejected (.shapeMismatch "weights" npoints n))

variable {α : Type}

section Arbitrary

variable {dim npoints : ℕ} {coords : List α} {weights : Option (List α)} {cause : Failure}

/-- The first number that does not fit is reported. -/
theorem arbitrary_of_misfit (h : Misfit dim npoints coords.length (weights.map List.length) cause) :
    arbitrary dim npoints coords weights = .error cause := by
  unfold arbitrary Size.word
  cases h with
  | dimension hdim => rw [if_pos hdim]
  | size hdim hsize => rw [if_neg (Nat.ne_of_gt hdim), if_neg (Nat.not_lt_of_le hsize)]
  | locations hdim hsize hcoords =>
    rw [if_neg (Nat.ne_of_gt hdim), if_pos hsize]
    exact if_pos hcoords
  | weights hdim hsize hcoords hn hweights =>
    obtain ⟨ws, rfl, rfl⟩ := Option.map_eq_some_iff.mp hn
    rw [if_neg (Nat.ne_of_gt hdim), if_pos hsize]
    exact (if_neg (not_not_intro hcoords)).trans (if_pos hweights)

/-- If no number is reported, all of them fit. -/
theorem fits_of_no_misfit {numCoords : ℕ} {numWeights : Option ℕ}
    (h : ∀ cause, ¬Misfit dim npoints numCoords numWeights cause) :
    1 ≤ dim ∧ numCoords = npoints * dim ∧ ∀ n, numWeights = some n → n = npoints := by
  have hdim : 1 ≤ dim := Nat.pos_of_ne_zero fun hdim => h _ (.dimension hdim)
  have hsize : npoints * dim < Size.wordCount :=
    Nat.lt_of_not_le fun hsize => h _ (.size hdim hsize)
  have hcoords : numCoords = npoints * dim :=
    Decidable.of_not_not fun hcoords => h _ (.locations hdim hsize hcoords)
  exact ⟨hdim, hcoords, fun n hn =>
    Decidable.of_not_not fun hweights => h _ (.weights hdim hsize hcoords hn hweights)⟩

/-- Coordinates that can be stored make a rule exactly if the numbers fit. -/
theorem arbitrary_isOk_iff (hstored : coords.length < Size.tableLimit) :
    (∃ rule, arbitrary dim npoints coords weights = .ok rule) ↔
      1 ≤ dim ∧ coords.length = npoints * dim ∧ ∀ ws, weights = some ws → ws.length = npoints := by
  constructor
  · rintro ⟨rule, hrule⟩
    obtain ⟨-, hdim, hcoords, hweights⟩ := arbitrary_ok hrule
    exact ⟨Nat.pos_of_ne_zero hdim, hcoords, hweights⟩
  · rintro ⟨hdim, hcoords, hweights⟩
    exact ⟨_, arbitrary_eq_ok hdim (hcoords ▸ hstored) hcoords hweights⟩

/-- What is reported is the first number that does not fit. -/
theorem arbitrary_eq_error_iff (hstored : coords.length < Size.tableLimit) :
    arbitrary dim npoints coords weights = .error cause ↔
      Misfit dim npoints coords.length (weights.map List.length) cause := by
  refine ⟨fun herror => ?_, arbitrary_of_misfit⟩
  by_contra hcause
  have hno : ∀ cause', ¬Misfit dim npoints coords.length (weights.map List.length) cause' := by
    intro cause' h'
    obtain rfl := Except.error.inj (herror.symm.trans (arbitrary_of_misfit h'))
    exact hcause h'
  obtain ⟨hdim, hcoords, hweights⟩ := fits_of_no_misfit hno
  have hok : ∃ rule, arbitrary dim npoints coords weights = .ok rule :=
    (arbitrary_isOk_iff hstored).mpr ⟨hdim, hcoords, fun ws hws => hweights _ (hws ▸ rfl)⟩
  obtain ⟨rule, hrule⟩ := hok
  cases herror.symm.trans hrule

end Arbitrary

/-! ## Views -/

/-- The rule has these points and weights in every view. Outside of the numbers of its points there
are no points. The matrix has a row for each point, and a weighted sum has a term for each point,
the first one first. -/
structure Shows [Scalar α] (r : Rule α) (coords : Fin r.npoints → List α)
    (weights : Option (Fin r.npoints → α)) : Prop where
  length_coords : ∀ i, (coords i).length = r.dim
  weights_eq : r.weights = weights.map List.ofFn
  point_eq : ∀ i : Fin r.npoints, r.point i = .ok (coords i)
  point_past : ∀ i, r.npoints ≤ i → r.point i = .error (.aborted .index)
  points_eq : r.points = List.ofFn fun i => ⟨coords i, weights.map (· i)⟩
  flatten_coords : (List.ofFn coords).flatten = r.locations
  coordMatrix_eq : 1 ≤ r.npoints → r.coordMatrix = .ok ⟨r.npoints, r.dim, List.ofFn coords⟩
  integrate_none : weights = none →
    ∀ f, r.integrate f = .error (.rejected (.unsupported "integrate" r.name))
  integrate_some : ∀ w, weights = some w → ∀ f, r.integrate f =
    .ok (Fin.foldl r.npoints (fun sum i => sum + f (coords i) * w i) (-0))

/-- The numbers of a rule fit together, and its coordinates fit a table. -/
structure WellShaped (r : Rule α) : Prop where
  dim_pos : 0 < r.dim
  length_locations : r.locations.length = r.npoints * r.dim
  length_weights : ∀ ws, r.weights = some ws → ws.length = r.npoints
  fitsTable : r.locations.length < Size.tableLimit

theorem Fits.wellShaped {r : Rule α} {kind : Kind} {order : ℕ} (h : r.Fits kind order)
    (hsize : kind.coordCount order < Size.tableLimit) : r.WellShaped where
  dim_pos := h.dim_pos
  length_locations := h.length_locations
  length_weights ws hws := by
    have hlen := h.length_weights
    rw [hws] at hlen
    exact Option.some.inj hlen
  fitsTable := by
    rw [Kind.coordCount, h.pointCount_eq, h.dim_eq] at hsize
    rw [h.length_locations]
    exact hsize

theorem wellShaped_of_arbitrary {dim npoints : ℕ} {coords : List α} {weights : Option (List α)}
    {r : Rule α} (hstored : coords.length < Size.tableLimit)
    (h : arbitrary dim npoints coords weights = .ok r) : r.WellShaped := by
  obtain ⟨rfl, hdim, hcoords, hweights⟩ := arbitrary_ok h
  exact ⟨Nat.pos_of_ne_zero hdim, hcoords, hweights, hstored⟩

/-- The coordinates from position `i * dim` on, as many as the dimension. -/
def block (r : Rule α) (i : ℕ) : List α := (r.locations.drop (i * r.dim)).take r.dim

namespace WellShaped

variable {r : Rule α} (h : r.WellShaped)

include h

theorem block_le {i : ℕ} (hi : i < r.npoints) : i * r.dim + r.dim ≤ r.locations.length := by
  rw [h.length_locations, ← Nat.succ_mul]
  exact Nat.mul_le_mul_right _ hi

theorem length_block {i : ℕ} (hi : i < r.npoints) : (r.block i).length = r.dim := by
  rw [block, List.length_take, List.length_drop]
  exact Nat.min_eq_left (Nat.le_sub_of_add_le' (h.block_le hi))

theorem point_eq {i : ℕ} (hi : i < r.npoints) : r.point i = .ok (r.block i) :=
  if_pos (Nat.succ_mul .. ▸ h.block_le hi)

theorem point_past {i : ℕ} (hi : r.npoints ≤ i) : r.point i = .error (.aborted .index) := by
  refine if_neg (Nat.not_le_of_lt ?_)
  rw [h.length_locations]
  exact Nat.mul_lt_mul_of_pos_right (Nat.lt_succ_of_le hi) h.dim_pos

/-- Blocks are cut as long as there are coordinates, which is once for each point. -/
theorem blocks_eq : blocks r.dim r.locations = List.ofFn fun i : Fin r.npoints => r.block i := by
  have hcount : r.locations.length / r.dim = r.npoints := by
    rw [h.length_locations, Nat.mul_div_cancel _ h.dim_pos]
  apply List.ext_getElem?
  intro i
  rw [blocks_getElem?, hcount, List.getElem?_ofFn]
  rfl

theorem flatten_blocks : (blocks r.dim r.locations).flatten = r.locations := by
  have hcount : r.locations.length / r.dim * r.dim = r.locations.length :=
    Nat.div_mul_cancel ⟨r.npoints, by rw [h.length_locations, Nat.mul_comm]⟩
  rw [blocks, flatten_blocksAfter (Nat.le_of_eq hcount), hcount, List.take_length]

/-- Every entry of the matrix is a coordinate of its point. -/
theorem row_eq {i : ℕ} (hi : i < r.npoints) :
    (List.range r.dim).mapM (r.entry r.locations.toArray i) = .ok (r.block i) := by
  have hlen := h.length_block hi
  refine mapM_of_forall₂ (List.forall₂_of_length_eq_of_get ?_ fun d hd hd' => ?_)
  · rw [List.length_range, hlen]
  · have hle := h.block_le hi
    have hlt : i * r.dim + d < r.locations.length := by omega
    simp [entry, block, List.getElem?_eq_getElem hlt]

theorem coordMatrix_eq (hpos : 1 ≤ r.npoints) :
    r.coordMatrix = .ok ⟨r.npoints, r.dim, List.ofFn fun i : Fin r.npoints => r.block i⟩ := by
  have hfits : max r.npoints 1 * max r.dim 1 < Size.extentLimit := by
    rw [Nat.max_eq_left hpos, Nat.max_eq_left h.dim_pos, ← h.length_locations]
    exact Nat.lt_trans h.fitsTable (by decide)
  have hrows : ((List.range r.npoints).mapM fun i =>
      (List.range r.dim).mapM fun d => r.entry r.locations.toArray i d) =
      .ok (List.ofFn fun i : Fin r.npoints => r.block i) := by
    refine mapM_of_forall₂ (List.forall₂_of_length_eq_of_get ?_ fun i hi hi' => ?_)
    · rw [List.length_range, List.length_ofFn]
    · have hlt : i < r.npoints := by simpa using hi
      simpa using h.row_eq hlt
  rw [coordMatrix, if_pos hfits]
  simp only [hrows]
  rfl

theorem exists_weights : ∃ weights : Option (Fin r.npoints → α),
    r.weights = weights.map List.ofFn := by
  cases hweights : r.weights with
  | none => exact ⟨none, rfl⟩
  | some ws =>
    obtain ⟨w, rfl⟩ := exists_ofFn (h.length_weights ws hweights)
    exact ⟨some w, rfl⟩

/-- The numbers fit, so all views agree. -/
theorem exists_shows [Scalar α] : ∃ coords weights, r.Shows coords weights := by
  obtain ⟨weights, hweights⟩ := h.exists_weights
  refine ⟨fun i => r.block i, weights, fun i => h.length_block i.isLt, hweights,
    fun i => h.point_eq i.isLt, fun i hi => h.point_past hi, ?_, h.blocks_eq ▸ h.flatten_blocks,
    h.coordMatrix_eq, ?_, ?_⟩
  · rw [points, hweights, h.blocks_eq]
    cases weights with
    | none => simp [List.map_ofFn, Function.comp_def]
    | some w => simp [zip_ofFn, List.map_ofFn, Function.comp_def]
  · rintro rfl f
    rw [integrate, hweights]
    rfl
  · rintro w rfl f
    rw [integrate, hweights, h.blocks_eq]
    simp only [Option.map_some, zip_ofFn, List.map_ofFn, Function.comp_def, Scalar.sum,
      foldl_ofFn]

end WellShaped

end Rule

end Cubature
