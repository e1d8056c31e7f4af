import Cubature.Proofs.Side.Interior
import Mathlib.LinearAlgebra.AffineSpace.Combination
import Mathlib.LinearAlgebra.AffineSpace.AffineSubspace.Basic

/-!
# Sides carried affinely

In exact arithmetic the interpolation weights at a point of a side add up to one
(`sum_shapeFunctions`), so the point is carried to an affine combination of the side's corners
(`vector_combination`): affine functions may be evaluated before or after, and a carried rule stays
in the affine hull of the side. At a corner of the reference element the weights single that corner
out (`shapeFunctions_vertex`), so it is carried to the corner of the side with the same number.

The main statement is `affine_of_soundSide`, for every side that a side set can be built from.
-/

namespace Cubature

open scoped Scalar Scalar.Exact

variable {K : Type} [Field K] [LinearOrder K]

/-! ## Combinations -/

/-- The coordinates of a point as a vector. -/
def vector (dim : ℕ) (p : List K) : Fin dim → K := fun d => p[(d : ℕ)]?.getD 0

section Combination

variable {dim : ℕ} {vertices : List (List K)} {coeffs : Fin vertices.length → K}

omit [LinearOrder K]

theorem combination_ofFn :
    combination dim (List.ofFn coeffs) vertices =
      (List.range dim).map fun d => ∑ k, coeffs k * vertices[k][d]?.getD 0 := by
  have hzip (d : ℕ) : List.zipWith (fun c vertex => c * vertex[d]?.getD 0) (List.ofFn coeffs)
      vertices = List.ofFn fun k => coeffs k * vertices[k][d]?.getD 0 := by
    apply List.ext_getElem <;> simp
  simp only [combination, hzip, List.sum_ofFn]

/-- Coefficients that add up to one combine the vertices affinely. -/
theorem vector_combination (hsum : ∑ k, coeffs k = 1) :
    vector dim (combination dim (List.ofFn coeffs) vertices) =
      Finset.univ.affineCombination K (fun k => vector dim vertices[k]) coeffs := by
  rw [Finset.affineCombination_eq_linear_combination _ _ _ hsum, combination_ofFn]
  funext d
  simp [vector, Finset.sum_apply]

/-- An affine function of the combination is the combination of its values. -/
theorem map_vector_combination (hsum : ∑ k, coeffs k = 1) (L : (Fin dim → K) →ᵃ[K] K) :
    L (vector dim (combination dim (List.ofFn coeffs) vertices)) =
      ∑ k, coeffs k * L (vector dim vertices[k]) := by
  rw [vector_combination hsum, Finset.map_affineCombination _ _ _ hsum,
    Finset.affineCombination_eq_linear_combination _ _ _ hsum]
  rfl

theorem combination_mem_affineSpan (hsum : ∑ k, coeffs k = 1) :
    vector dim (combination dim (List.ofFn coeffs) vertices) ∈
      affineSpan K (Set.range fun k : Fin vertices.length => vector dim vertices[k]) := by
  rw [vector_combination hsum]
  exact affineCombination_mem_affineSpan hsum _

/-- A vertex with all the weight is the combination. -/
theorem combination_single (k : Fin vertices.length) (hdim : vertices[k].length = dim) :
    combination dim (List.ofFn (Pi.single k 1 : Fin vertices.length → K)) vertices =
      vertices[k] := by
  rw [combination_ofFn]
  apply List.ext_getElem
  · simpa using hdim.symm
  · intro d _ hd
    simp only [List.getElem_map, List.getElem_range, Pi.single_apply, ite_mul, one_mul, zero_mul,
      Finset.sum_ite_eq', Finset.mem_univ, if_true]
    rw [List.getElem?_eq_getElem hd, Option.getD_some]

end Combination

/-! ## Interpolation weights -/

section Weights

variable [IsStrictOrderedRing K] {kind : Kind} {p : Point K} {shape : List K}

/-- The interpolation weights add up to one at every point. -/
theorem sum_shapeFunctions (h : shapeFunctions kind p = .ok shape) : shape.sum = 1 := by
  cases kind with
  | arbitrary | hexahedron | tetrahedron => cases h
  | line | triangle | quadrilateral =>
    obtain rfl := Except.ok.inj h
    simp only [Scalar.Exact.ofNat_one, List.sum_cons, List.sum_nil]
    ring

/-- At a corner of the reference element that corner has all the weight. -/
theorem shapeFunctions_vertex {e : ReferenceElement} {n k : ℕ} {c : List K}
    (hcount : e.kind.cornerCount? = some n) (hc : e.topology.vertexCoords? k = some c)
    (w : Option K) :
    ∃ hk : k < n,
      shapeFunctions e.kind ⟨c, w⟩ = .ok (List.ofFn (Pi.single ⟨k, hk⟩ 1 : Fin n → K)) := by
  obtain ⟨corner, hcorner, rfl⟩ := Option.map_eq_some_iff.mp hc
  cases e with
  | hex8 | tetra4 => cases hcount
  | bar2 | tri3 | quad4 =>
    cases hcount
    rcases k with _ | _ | _ | _ | k <;> cases hcorner
    all_goals
      refine ⟨by decide, ?_⟩
      simp [shapeFunctions, ReferenceElement.kind, Point.xi, Point.eta, Point.coord,
        ReferenceElement.coordinate_eq_intCast] <;> norm_num

/-- Every point is carried to the combination of the corners with its interpolation weights. -/
theorem exists_weights {corners : List (List K)} (hcount : kind.cornerCount? = some corners.length)
    (dim : ℕ) (p : Point K) :
    ∃ N : Fin corners.length → K, shapeFunctions kind p = .ok (List.ofFn N) ∧ ∑ k, N k = 1 ∧
      carry dim kind corners p.coords = combination dim (List.ofFn N) corners := by
  obtain ⟨shape, hshape, hlen, hcarry⟩ := exists_shape hcount dim p
  have hofFn : List.ofFn (fun k : Fin corners.length => shape[k]) = shape := by
    apply List.ext_getElem <;> simp [hlen]
  refine ⟨fun k => shape[k], hofFn.symm ▸ hshape, ?_, ?_⟩
  · rw [← List.sum_ofFn, hofFn, sum_shapeFunctions hshape]
  · rw [hofFn, hcarry, interpolate_eq_combination]

end Weights

/-- An affine function of a carried point is the combination of its values at the corners. -/
theorem exists_affine_weights [IsStrictOrderedRing K] {kind : Kind} {corners : List (List K)}
    (hcount : kind.cornerCount? = some corners.length) (dim : ℕ) (p : Point K) :
    ∃ N : Fin corners.length → K, shapeFunctions kind p = .ok (List.ofFn N) ∧ ∑ k, N k = 1 ∧
      ∀ L : (Fin dim → K) →ᵃ[K] K, L (vector dim (carry dim kind corners p.coords)) =
        ∑ k, N k * L (vector dim corners[k]) := by
  obtain ⟨N, hN, hsum, hcarry⟩ := exists_weights hcount dim p
  refine ⟨N, hN, hsum, fun L => ?_⟩
  rw [hcarry, map_vector_combination hsum]

/-- Every point is carried into the affine hull of the corners. -/
theorem vector_carry_mem_affineSpan [IsStrictOrderedRing K] {kind : Kind} {corners : List (List K)}
    (hcount : kind.cornerCount? = some corners.length) (dim : ℕ) (p : List K) :
    vector dim (carry dim kind corners p) ∈
      affineSpan K (Set.range fun k : Fin corners.length => vector dim corners[k]) := by
  obtain ⟨N, -, hsum, hcarry⟩ := exists_weights hcount dim ⟨p, none⟩
  rw [hcarry]
  exact combination_mem_affineSpan hsum

/-- A corner of the reference element is carried to the corner with its number. -/
theorem carry_vertex [IsStrictOrderedRing K] {e : ReferenceElement} {corners : List (List K)}
    {dim k : ℕ} {c : List K} (hcount : e.kind.cornerCount? = some corners.length)
    (hdim : ∀ corner ∈ corners, corner.length = dim) (hc : e.topology.vertexCoords? k = some c) :
    corners[k]? = some (carry dim e.kind corners c) := by
  obtain ⟨hk, hsingle⟩ := shapeFunctions_vertex hcount hc none
  obtain ⟨N, hN, -, hcarry⟩ := exists_weights hcount dim ⟨c, none⟩
  obtain rfl := List.ofFn_injective (Except.ok.inj (hN.symm.trans hsingle))
  rw [hcarry, combination_single ⟨k, hk⟩ (hdim _ (List.getElem_mem hk))]
  exact List.getElem?_eq_getElem hk

/-! ## Carried rules -/

section Sound

variable {α : Type} {t : Topology α} {i maxOrder order : ℕ}

/-- A sound side has corners of the element's dimension, as many as its kind has. -/
theorem Topology.SoundSide.exists_corners (h : t.SoundSide maxOrder order i) :
    ∃ (e : ReferenceElement) (vertices : List ℕ) (corners : List (List α)), t.HasShape i e ∧
      (1 ≤ order ∧ order ≤ maxOrder) ∧ t.sideVertices? i = some vertices ∧
      vertices.map t.vertexCoords? = corners.map some ∧ t.sideCorners i = .ok corners ∧
      e.kind.cornerCount? = some corners.length ∧ ∀ corner ∈ corners, corner.length = t.dim := by
  obtain ⟨e, vertices, hshape, horder, hvertices, hcount, hlocates⟩ := h
  obtain ⟨corners, hcorners, hlen⟩ := Topology.sideCorners_eq_ok hvertices hlocates
  obtain ⟨vertices', hvertices', hcoords⟩ := Topology.sideCorners_ok hcorners
  obtain rfl := Option.some.inj (hvertices.symm.trans hvertices')
  refine ⟨e, vertices, corners, hshape, horder, hvertices, hcoords, hcorners, hlen ▸ hcount, ?_⟩
  intro corner hcorner
  have hmem : some corner ∈ vertices.map t.vertexCoords? :=
    hcoords ▸ List.mem_map_of_mem hcorner
  obtain ⟨v, hv, hv'⟩ := List.mem_map.mp hmem
  obtain ⟨coords, hcoords', hdim⟩ := hlocates v hv
  obtain rfl := Option.some.inj (hv'.symm.trans hcoords')
  exact hdim

end Sound

section Rules

variable {α : Type} [Scalar α] {kind : Kind} {order i j : ℕ} {rule : Rule α} {t : Topology α}
  {corners : List (List α)}

theorem mapPoint_eq_carry (hcount : kind.cornerCount? = some corners.length) (dim : ℕ)
    (p : Point α) : mapPoint dim kind corners p = .ok (carry dim kind corners p.coords) := by
  rw [mapPoint_eq, hcount]
  exact if_pos rfl

/-- Every kind of rule but the arbitrary ones is generated with all its points. -/
theorem Rule.exists_generate (start : ℕ → ℕ → α) (limits : Gauss.Limits α)
    (hkind : kind ≠ .arbitrary) (hpos : 1 ≤ order) (hsize : order < Size.tableLimit) :
    ∃ rule, Rule.generate (Gauss.rule start limits order) kind order = .ok rule ∧
      kind.pointCount? order = some rule.npoints := by
  have hnodes {alpha : UInt32} {exponent : ℤ} (h : Gauss.weightExponent alpha = .ok exponent) :
      ∃ nodes, Gauss.rule start limits order alpha = .ok nodes :=
    Gauss.rule_isOk start limits hpos hsize h
  obtain ⟨s, hs⟩ := hnodes (rfl : Gauss.weightExponent 0 = .ok 1)
  obtain ⟨t, ht⟩ := hnodes (rfl : Gauss.weightExponent 1 = .ok 2)
  obtain ⟨r, hr⟩ := hnodes (rfl : Gauss.weightExponent 2 = .ok 3)
  cases kind with
  | arbitrary => exact absurd rfl hkind
  | line | quadrilateral | hexahedron => exact ⟨_, by rw [Rule.generate, hs]; rfl, rfl⟩
  | triangle => exact ⟨_, by rw [Rule.generate, hs, ht]; rfl, rfl⟩
  | tetrahedron => exact ⟨_, by rw [Rule.generate, hs, ht, hr]; rfl, rfl⟩

/-- The point of a carried rule is the carried point of the rule. -/
theorem Rule.Fits.exists_point_carried (hfits : rule.Fits kind order) {dim : ℕ} (hdim : 0 < dim)
    (corners : List (List α)) (hj : j < rule.npoints) :
    ∃ p, rule.points[j]? = some p ∧
      (rule.carried dim corners).point j = .ok (carry dim kind corners p.coords) := by
  have hlt : j < rule.points.length := hfits.length_points.symm ▸ hj
  have hcoords : (blocks rule.dim rule.locations)[j]? = some rule.points[j].coords := by
    rw [← hfits.coords_points, List.getElem?_map, List.getElem?_eq_getElem hlt, Option.map_some]
  refine ⟨_, List.getElem?_eq_getElem hlt, ?_⟩
  rw [(hfits.isImage_carried hdim corners).point_eq, Rule.point_eq_block hfits.dim_pos, hcoords]
  rfl

/-- Sides from which points are carried have at most two dimensions. -/
theorem Kind.dim_le_two {n : ℕ} (h : kind.cornerCount? = some n) :
    kind ≠ .arbitrary ∧ kind.dim?.getD 0 ≤ 2 := by
  cases kind <;> cases h <;> decide

/-- The rule of a side is generated and carried if its coordinates can be counted. -/
theorem Rule.exists_carried (start : ℕ → ℕ → α) (limits : Gauss.Limits α)
    (hcount : kind.cornerCount? = some corners.length) (hcorners : t.sideCorners i = .ok corners)
    (hdim : 2 ≤ t.dim) (hpos : 1 ≤ order)
    (hsize : (kind.pointCount? order).getD 0 * t.dim < Size.tableLimit) :
    ∃ rule, Rule.generate (Gauss.rule start limits order) kind order = .ok rule ∧
      rule.Fits kind order ∧ parentRule t i rule = .ok (rule.carried t.dim corners) := by
  obtain ⟨hkind, hside⟩ := Kind.dim_le_two hcount
  have horder : order < Size.tableLimit :=
    calc order ≤ kind.coordCount order := Kind.order_le_coordCount hkind order
      _ ≤ (kind.pointCount? order).getD 0 * t.dim := Nat.mul_le_mul_left _ (hside.trans hdim)
      _ < Size.tableLimit := hsize
  have hpos' : 0 < t.dim := by omega
  obtain ⟨rule, hrule, hnpoints⟩ := exists_generate start limits hkind hpos horder
  rw [hnpoints, Option.getD_some] at hsize
  have hfits := fits_generate hrule (lt_of_le_of_lt (Nat.le_mul_of_pos_right _ hpos') hsize)
  refine ⟨rule, hrule, hfits, ?_⟩
  rw [parentRule_eq hfits hpos hpos' hcorners hsize, hcount]
  exact if_pos rfl

end Rules

section Main

variable [IsStrictOrderedRing K] {t : Topology K} {i maxOrder order : ℕ}

/-- Let a side of an element of dimension at least two pass all checks.

* Every point is carried into the element, with interpolation weights that add up to one. An affine
  function has at the carried point the sum of its values at the corners of the side times these
  weights.
* A corner of the reference element of the side is carried to the corner of the side with the same
  number.
* For all starts and limits of the root searches, the rule of the side is generated and carried if
  its coordinates can be counted. Its points are the carried ones: they lie in the affine hull of
  the corners, and an affine function that vanishes at all corners vanishes at them. -/
theorem affine_of_soundSide (hdim : 2 ≤ t.dim) (hside : t.SoundSide maxOrder order i) :
    ∃ (e : ReferenceElement) (vertices : List ℕ) (corners : List (List K)),
      t.HasShape i e ∧ t.sideVertices? i = some vertices ∧
      vertices.map t.vertexCoords? = corners.map some ∧
      (∀ p : Point K, ∃ (N : Fin corners.length → K) (q : List K),
        shapeFunctions e.kind p = .ok (List.ofFn N) ∧ ∑ k, N k = 1 ∧
        mapPoint t.dim e.kind corners p = .ok q ∧ q.length = t.dim ∧
        ∀ L : (Fin t.dim → K) →ᵃ[K] K,
          L (vector t.dim q) = ∑ k, N k * L (vector t.dim corners[k])) ∧
      (∀ (k : ℕ) (c : List K) (w : Option K), e.topology.vertexCoords? k = some c →
        ∃ corner, corners[k]? = some corner ∧
          mapPoint t.dim e.kind corners ⟨c, w⟩ = .ok corner) ∧
      ∀ (start : ℕ → ℕ → K) (limits : Gauss.Limits K),
        (e.kind.pointCount? order).getD 0 * t.dim < Size.tableLimit →
        ∃ rule parent, Rule.generate (Gauss.rule start limits order) e.kind order = .ok rule ∧
          parentRule t i rule = .ok parent ∧ parent.npoints = rule.npoints ∧
          ∀ j < parent.npoints, ∃ p q, rule.points[j]? = some p ∧ parent.point j = .ok q ∧
            mapPoint t.dim e.kind corners p = .ok q ∧
            vector t.dim q ∈
              affineSpan K (Set.range fun k : Fin corners.length => vector t.dim corners[k]) ∧
            ∀ L : (Fin t.dim → K) →ᵃ[K] K, (∀ corner ∈ corners, L (vector t.dim corner) = 0) →
              L (vector t.dim q) = 0 := by
  have hpos : 0 < t.dim := by omega
  obtain ⟨e, vertices, corners, hshape, ⟨horder, -⟩, hvertices, hcoords, hcorners, hcount, hlen⟩ :=
    hside.exists_corners
  refine ⟨e, vertices, corners, hshape, hvertices, hcoords, fun p => ?_, fun k c w hc => ?_,
    fun start limits hsize => ?_⟩
  · obtain ⟨N, hN, hsum, haffine⟩ := exists_affine_weights hcount t.dim p
    exact ⟨N, _, hN, hsum, mapPoint_eq_carry hcount _ p, length_carry .., haffine⟩
  · exact ⟨_, carry_vertex hcount hlen hc, mapPoint_eq_carry hcount _ _⟩
  · obtain ⟨rule, hrule, hfits, hparent⟩ :=
      Rule.exists_carried start limits hcount hcorners hdim horder hsize
    refine ⟨rule, _, hrule, hparent, rfl, fun j hj => ?_⟩
    obtain ⟨p, hp, hpoint⟩ := hfits.exists_point_carried hpos corners hj
    refine ⟨p, _, hp, hpoint, mapPoint_eq_carry hcount _ p,
      vector_carry_mem_affineSpan hcount _ _, fun L hL => ?_⟩
    -- An affine function that vanishes at the corners vanishes in every sum of its values there.
    obtain ⟨N, -, -, haffine⟩ := exists_affine_weights hcount t.dim p
    rw [haffine]
    exact Finset.sum_eq_zero fun k _ => by
      rw [hL corners[k] (List.getElem_mem k.isLt), mul_zero]

end Main

/-- A roof of one face in the plane `x + z = 1`, whose corners are listed from the last one on. -/
def roof : Topology ℚ :=
  { name := "ROOF"
    dim := 3
    numSides := 1
    sideShape? := fun side => if side = 0 then some "SHELL9" else none
    sideVertices? := fun side => if side = 0 then some [3, 0, 1, 2] else none
    vertexCoords? := fun v => [[0, 0, 1], [1, 0, 0], [1, 3, 0], [0, 2, 1]][v]? }

/-- Positive above the plane of the roof, zero on it. -/
def aboveRoof : (Fin 3 → ℚ) →ᵃ[ℚ] ℚ :=
  (LinearMap.proj (0 : Fin 3) : (Fin 3 → ℚ) →ₗ[ℚ] ℚ).toAffineMap +
    (LinearMap.proj (2 : Fin 3) : (Fin 3 → ℚ) →ₗ[ℚ] ℚ).toAffineMap -
    AffineMap.const ℚ (Fin 3 → ℚ) (1 : ℚ)

@[simp] theorem aboveRoof_apply (v : Fin 3 → ℚ) : aboveRoof v = v 0 + v 2 - 1 := rfl

/-- The four points that a square rule has on the roof, wherever its nodes are, lie in its plane. -/
theorem affine_of_roof : 2 ≤ roof.dim ∧ roof.SoundSide 64 2 0 ∧
    ∀ (start : ℕ → ℕ → ℚ) (limits : Gauss.Limits ℚ), ∃ rule parent,
      Rule.generate (Gauss.rule start limits 2) .quadrilateral 2 = .ok rule ∧
      parentRule roof 0 rule = .ok parent ∧ parent.npoints = 4 ∧
      ∀ j < 4, ∃ q, parent.point j = .ok q ∧ aboveRoof (vector 3 q) = 0 := by
  have hside : roof.SoundSide 64 2 0 := by
    refine ⟨.quad4, [3, 0, 1, 2], ⟨_, rfl, by decide⟩, by decide, rfl, rfl, fun v hv => ?_⟩
    fin_cases hv <;> exact ⟨_, rfl, rfl⟩
  obtain ⟨e, vertices, corners, ⟨shape, hshape, he⟩, hvertices, hcoords, -, -, hrules⟩ :=
    affine_of_soundSide (by decide : 2 ≤ roof.dim) hside
  cases hshape
  cases hvertices
  obtain rfl : e = .quad4 := ReferenceElement.eq_of_mem_names he (by decide)
  have hcorners : ∀ corner ∈ corners, aboveRoof (vector 3 corner) = 0 := by
    intro corner hcorner
    have hmem : some corner ∈ [3, 0, 1, 2].map roof.vertexCoords? :=
      hcoords ▸ List.mem_map_of_mem hcorner
    obtain ⟨v, hv, hcoords'⟩ := List.mem_map.mp hmem
    fin_cases hv <;> cases hcoords' <;> norm_num [vector]
  refine ⟨by decide, hside, fun start limits => ?_⟩
  obtain ⟨rule, parent, hrule, hparent, hsame, hpoints⟩ := hrules start limits (by decide)
  have hfour : parent.npoints = 4 := by
    obtain ⟨_, -, h⟩ := bind_eq_ok hrule
    obtain rfl := Except.ok.inj h
    exact hsame
  refine ⟨rule, parent, hrule, hparent, hfour, fun j hj => ?_⟩
  obtain ⟨-, q, -, hq, -, -, hplane⟩ := hpoints j (hfour ▸ hj)
  exact ⟨q, hq, hplane aboveRoof hcorners⟩

end Cubature
