import Cubature.Proofs.Rule.Interior
import Cubature.Proofs.Side.Reference

/-!
# Points inside the sides

A point strictly inside the reference element of a side is carried strictly inside the side: it
becomes a combination of the side's vertices with positive coefficients that add up to one
(`OpenHull`). The coefficients are the interpolation weights at the point (`openHull_carry`). So
side rules are carried inside the sides of every reference element (`Rule.interior_of_inside`).
-/

namespace Cubature

open scoped Scalar Scalar.Exact

/-- A point is carried by interpolation with its weights, one for each corner. -/
theorem exists_shape {α : Type} [Scalar α] {kind : Kind} {corners : List (List α)}
    (hcount : kind.cornerCount? = some corners.length) (dim : ℕ) (p : Point α) :
    ∃ shape, shapeFunctions kind p = .ok shape ∧ shape.length = corners.length ∧
      carry dim kind corners p.coords = interpolate dim shape corners := by
  have hmap : mapPoint dim kind corners p = .ok (carry dim kind corners p.coords) := by
    rw [mapPoint_eq, hcount]
    exact if_pos rfl
  unfold mapPoint at hmap
  split at hmap
  · cases hmap
  rename_i shape hshape
  split at hmap
  · rename_i hlen
    exact ⟨shape, hshape, hlen, (Except.ok.inj hmap).symm⟩
  · cases hmap

variable {K : Type} [Field K] [LinearOrder K]

/-! ## Combinations of vertices -/

/-- The combination of points with the given coefficients, in each of `dim` directions. -/
def combination (dim : ℕ) (coeffs : List K) (vertices : List (List K)) : List K :=
  (List.range dim).map fun d =>
    (List.zipWith (fun c vertex => c * vertex[d]?.getD 0) coeffs vertices).sum

/-- The point is a combination of all vertices with positive coefficients that add up to one. -/
def OpenHull (dim : ℕ) (vertices : List (List K)) (p : List K) : Prop :=
  ∃ coeffs : List K, coeffs.length = vertices.length ∧ (∀ c ∈ coeffs, 0 < c) ∧ coeffs.sum = 1 ∧
    p = combination dim coeffs vertices

theorem interpolate_eq_combination (dim : ℕ) (shape : List K) (vertices : List (List K)) :
    interpolate dim shape vertices = combination dim shape vertices := by
  unfold interpolate combination
  simp only [Scalar.sum_eq_sum, Scalar.Exact.ofNat_zero]

section Weights

variable [IsStrictOrderedRing K] {kind : Kind} {p : Point K} {shape : List K} {s t : K}

theorem weights_line (hs : -1 < s ∧ s < 1) :
    (∀ c ∈ [1 / 2 * (1 - s), 1 / 2 * (1 + s)], 0 < c) ∧
      [1 / 2 * (1 - s), 1 / 2 * (1 + s)].sum = 1 := by
  obtain ⟨hlo, hhi⟩ := hs
  simp only [List.forall_mem_cons, List.sum_cons, List.sum_nil]
  exact ⟨⟨by linarith, by linarith, List.forall_mem_nil _⟩, by ring⟩

theorem weights_triangle (hs : 0 < s) (ht : 0 < t) (hsum : s + t < 1) :
    (∀ c ∈ [1 - s - t, s, t], 0 < c) ∧ [1 - s - t, s, t].sum = 1 := by
  simp only [List.forall_mem_cons, List.sum_cons, List.sum_nil]
  exact ⟨⟨by linarith, hs, ht, List.forall_mem_nil _⟩, by ring⟩

/-- The weights of the square are products of those of two lines. -/
theorem weights_quadrilateral (hs : -1 < s ∧ s < 1) (ht : -1 < t ∧ t < 1) :
    (∀ c ∈ [1 / 4 * (1 - s) * (1 - t), 1 / 4 * (1 + s) * (1 - t), 1 / 4 * (1 + s) * (1 + t),
        1 / 4 * (1 - s) * (1 + t)], 0 < c) ∧
      [1 / 4 * (1 - s) * (1 - t), 1 / 4 * (1 + s) * (1 - t), 1 / 4 * (1 + s) * (1 + t),
        1 / 4 * (1 - s) * (1 + t)].sum = 1 := by
  have hs₀ : 0 < 1 / 4 * (1 + s) := by linarith
  have hs₁ : 0 < 1 / 4 * (1 - s) := by linarith
  have ht₀ : 0 < 1 + t := by linarith
  have ht₁ : 0 < 1 - t := by linarith
  simp only [List.forall_mem_cons, List.sum_cons, List.sum_nil]
  exact ⟨⟨mul_pos hs₁ ht₁, mul_pos hs₀ ht₁, mul_pos hs₀ ht₀, mul_pos hs₁ ht₀,
    List.forall_mem_nil _⟩, by ring⟩

/-- Strictly inside, the interpolation weights are positive and add up to one. -/
theorem shapeFunctions_inside (h : shapeFunctions kind p = .ok shape)
    (hp : kind.Inside p.coords) : (∀ c ∈ shape, 0 < c) ∧ shape.sum = 1 := by
  obtain ⟨coords, weight⟩ := p
  obtain ⟨hdim, hp⟩ := hp
  cases kind with
  | arbitrary | hexahedron | tetrahedron => cases h
  | line =>
    obtain ⟨s, rfl⟩ := List.length_eq_one_iff.mp (Option.some.inj hdim).symm
    obtain rfl := Except.ok.inj h
    simp only [Scalar.Exact.ofNat_one]
    exact weights_line (hp s (List.mem_singleton_self s))
  | triangle =>
    obtain ⟨s, t, rfl⟩ := List.length_eq_two.mp (Option.some.inj hdim).symm
    obtain rfl := Except.ok.inj h
    simp only [List.forall_mem_cons, List.sum_cons, List.sum_nil, add_zero] at hp
    simp only [Scalar.Exact.ofNat_one]
    exact weights_triangle hp.1.1 hp.1.2.1 hp.2
  | quadrilateral =>
    obtain ⟨s, t, rfl⟩ := List.length_eq_two.mp (Option.some.inj hdim).symm
    obtain rfl := Except.ok.inj h
    simp only [List.forall_mem_cons] at hp
    simp only [Scalar.Exact.ofNat_one]
    exact weights_quadrilateral hp.1 hp.2.1

/-- Points strictly inside are carried strictly inside the side. -/
theorem openHull_carry {corners : List (List K)} (hcount : kind.cornerCount? = some corners.length)
    (dim : ℕ) {p : List K} (hp : kind.Inside p) :
    OpenHull dim corners (carry dim kind corners p) := by
  obtain ⟨shape, hshape, hlen, hcarry⟩ := exists_shape hcount dim ⟨p, none⟩
  obtain ⟨hpos, hsum⟩ := shapeFunctions_inside hshape hp
  exact ⟨shape, hlen, hpos, hsum, hcarry.trans (interpolate_eq_combination ..)⟩

end Weights

/-! ## Vertices of reference elements -/

namespace ReferenceElement

variable {e : ReferenceElement} {i : ℕ}

theorem dim_pos (e : ReferenceElement) : 0 < e.dim := by cases e <;> decide

/-- The vertices of a side with their coordinates in the table, as points over a field. -/
def sideVertices (K : Type) [Field K] (e : ReferenceElement) (i : ℕ) : List (List K) :=
  (e.sides[i]?.getD []).map fun v => (e.corners[v]?.getD []).map ((↑) : ℤ → K)

omit [LinearOrder K] in
theorem length_sideVertices (hi : i < e.sides.length) :
    (e.sideVertices K i).length = e.sides[i].length := by
  rw [sideVertices, List.getElem?_eq_getElem hi, Option.getD_some, List.length_map]

theorem coordinate_eq_intCast (k : ℤ) : (coordinate k : K) = k := by
  unfold coordinate
  split
  · rename_i hk
    show -((k.natAbs : ℕ) : K) = k
    rw [Nat.cast_natAbs, abs_of_neg hk, Int.cast_neg, neg_neg]
  · rename_i hk
    show ((k.natAbs : ℕ) : K) = k
    rw [Nat.cast_natAbs, abs_of_nonneg (not_lt.mp hk)]

/-- The corners of a side are the vertices of the table. -/
theorem sideCorners_eq (hi : i < e.sides.length) :
    e.topology.sideCorners i = .ok (e.sideVertices K i) := by
  have hside : e.sides[i]? = some e.sides[i] := List.getElem?_eq_getElem hi
  have hvertex : ∀ v ∈ e.sides[i], (e.topology (α := K)).vertex v =
      .ok ((e.corners[v]?.getD []).map ((↑) : ℤ → K)) := by
    intro v hv
    have hlt := lt_of_mem_sides (List.getElem_mem hi) hv
    rw [List.getElem?_eq_getElem hlt, Option.getD_some, Topology.vertex_eq_ok_iff]
    refine ⟨?_, ?_⟩
    · simp [topology, List.getElem?_eq_getElem hlt, coordinate_eq_intCast]
    · rw [List.length_map]
      exact length_of_mem_corners (List.getElem_mem hlt)
  have hcorners : (e.topology (α := K)).sideCorners i =
      e.sides[i].mapM (e.topology (α := K)).vertex := by
    unfold Topology.sideCorners
    rw [show (e.topology (α := K)).sideVertices? i = some e.sides[i] from hside]
  rw [hcorners, mapM_eq_ok hvertex, sideVertices, hside, Option.getD_some]

end ReferenceElement

/-! ## Carried rules -/

namespace Rule

variable [IsStrictOrderedRing K] {start : ℕ → ℕ → K} {limits : Gauss.Limits K} {order : ℕ}
  {s t r : Gauss.Nodes K} {e : ReferenceElement} {i : ℕ} {kind : Kind} {rule parent : Rule K}

/-- The points of a carried rule lie strictly inside the side if those of the rule lie strictly
inside its element. -/
theorem Interior.openHull_parentRule (hrule : rule.Interior kind) (hfits : rule.Fits kind order)
    (hpos : 1 ≤ order) (hi : i < e.sides.length) (h : parentRule e.topology i rule = .ok parent) :
    parent.npoints = rule.npoints ∧ ∀ j < parent.npoints, ∃ p, parent.point j = .ok p ∧
      OpenHull e.dim (e.sideVertices K i) p := by
  have hdim : 0 < (e.topology (α := K)).dim := e.dim_pos
  obtain ⟨corners, hcorners, hcount, rfl⟩ := parentRule_eq_carried hfits hpos h
  obtain rfl := Except.ok.inj ((ReferenceElement.sideCorners_eq hi).symm.trans hcorners)
  refine ⟨rfl, fun j hj => ?_⟩
  obtain ⟨p, hp, hinside⟩ := hrule.point j hj
  refine ⟨_, ?_, openHull_carry hcount e.dim hinside⟩
  rw [(hfits.isImage_carried hdim _).point_eq, hp]
  rfl

omit [IsStrictOrderedRing K] in
/-- A rule of the sides is carried if its coordinates can be counted. -/
theorem Fits.exists_parentRule (hfits : rule.Fits kind order) (hpos : 1 ≤ order)
    (hi : i < e.sides.length) (hcount : kind.cornerCount? = some e.sides[i].length)
    (hsize : rule.npoints * e.dim < Size.tableLimit) :
    ∃ parent, parentRule e.topology i rule = .ok parent := by
  have hdim : 0 < (e.topology (α := K)).dim := e.dim_pos
  have hlen : e.sides[i].length = (e.sideVertices K i).length :=
    (ReferenceElement.length_sideVertices hi).symm
  refine ⟨rule.carried e.dim (e.sideVertices K i), ?_⟩
  rw [parentRule_eq hfits hpos hdim (ReferenceElement.sideCorners_eq hi) hsize, hcount]
  exact if_pos hlen

/-- Points and weights stay strictly inside. If the nodes of the one-dimensional rules for
`(1 - x) ^ alpha` with `alpha = 0, 1, 2` lie strictly inside `[-1, 1]` and their weights are
positive, then

* the rule of every kind is generated with all its points, which lie strictly inside its reference
  element, and with positive weights,
* and every side of a reference element of dimension two or three has a side rule. It is carried
  into the element as far as its coordinates can be counted, and every carried point is a
  combination of the vertices of the side with positive coefficients that add up to one. -/
theorem interior_of_inside (hs : Gauss.rule start limits order 0 = .ok s)
    (ht : Gauss.rule start limits order 1 = .ok t) (hr : Gauss.rule start limits order 2 = .ok r)
    (inside_s : s.Inside) (inside_t : t.Inside) (inside_r : r.Inside) :
    (∀ kind, kind ≠ .arbitrary →
      ∃ rule, generate (Gauss.rule start limits order) kind order = .ok rule ∧
        kind.pointCount? order = some rule.npoints ∧ rule.Interior kind) ∧
    ∀ (e : ReferenceElement) (i : ℕ), 2 ≤ e.dim → i < e.sides.length →
      ∃ side rule, e.kind.sideKind? = some side ∧
        generate (Gauss.rule start limits order) side order = .ok rule ∧
        (rule.npoints * e.dim < Size.tableLimit →
          ∃ parent, parentRule e.topology i rule = .ok parent) ∧
        ∀ parent, parentRule e.topology i rule = .ok parent →
          parent.npoints = rule.npoints ∧ ∀ j < parent.npoints, ∃ p, parent.point j = .ok p ∧
            OpenHull e.dim (e.sideVertices K i) p := by
  refine ⟨fun kind hkind => exists_interior hs ht hr inside_s inside_t inside_r hkind, ?_⟩
  intro e i hdim hi
  obtain ⟨side, -, hside, hcount⟩ := ReferenceElement.exists_sideElement hdim
  have hne : side.kind ≠ .arbitrary := by cases side <;> decide
  obtain ⟨rule, hrule, -, hinterior⟩ := exists_interior hs ht hr inside_s inside_t inside_r hne
  have hpos : 1 ≤ order := Gauss.pos_of_rule hs
  have hfits : rule.npoints * e.dim < Size.tableLimit → rule.Fits side.kind order := fun hsize =>
    fits_generate hrule (lt_of_le_of_lt (Nat.le_mul_of_pos_right _ (by omega)) hsize)
  refine ⟨side.kind, rule, hside, hrule, fun hsize => ?_, fun parent hparent => ?_⟩
  · exact (hfits hsize).exists_parentRule hpos hi (hcount _ (List.getElem_mem hi)) hsize
  · obtain ⟨_, _, _, hsize, -⟩ := parentRule_cases hparent
    exact hinterior.openHull_parentRule (hfits hsize) hpos hi hparent

/-- The rules of two points after one step of each root search, whose nodes are close to the
roots. -/
def nearPair : UInt32 → Except Failure (Gauss.Nodes ℚ) := Gauss.rule (fun _ _ => 1 / 2) ⟨0, 1⟩ 2

/-- The eight points of a rule of order two over the tetrahedron, and the four points of such a rule
over its second side. -/
theorem interior_near_pair :
    (∃ rule, generate nearPair .tetrahedron 2 = .ok rule ∧ rule.npoints = 8 ∧
      rule.Interior .tetrahedron) ∧
    ∃ rule parent, generate nearPair .triangle 2 = .ok rule ∧
      parentRule ReferenceElement.tetra4.topology 1 rule = .ok parent ∧ parent.npoints = 4 ∧
      ∀ j < 4, ∃ p, parent.point j = .ok p ∧ OpenHull 3 [[1, 0, 0], [0, 1, 0], [0, 0, 1]] p := by
  obtain ⟨s, hs, inside_s⟩ : ∃ s, nearPair 0 = .ok s ∧ s.Inside := ⟨_, rfl, by decide +kernel⟩
  obtain ⟨t, ht, inside_t⟩ : ∃ t, nearPair 1 = .ok t ∧ t.Inside := ⟨_, rfl, by decide +kernel⟩
  obtain ⟨r, hr, inside_r⟩ : ∃ r, nearPair 2 = .ok r ∧ r.Inside := ⟨_, rfl, by decide +kernel⟩
  obtain ⟨hkinds, hsides⟩ := interior_of_inside hs ht hr inside_s inside_t inside_r
  obtain ⟨tetrahedron, htetrahedron, hcount, hinterior⟩ := hkinds .tetrahedron (by decide)
  refine ⟨⟨tetrahedron, htetrahedron, (Option.some.inj hcount).symm, hinterior⟩, ?_⟩
  obtain ⟨side, rule, hside, hrule, hexists, hpoints⟩ :=
    hsides .tetra4 1 (by decide) (by decide)
  obtain rfl : .triangle = side := Option.some.inj hside
  have hfour : rule.npoints = 4 := by
    obtain ⟨_, -, h⟩ := bind_eq_ok hrule
    obtain ⟨_, -, h⟩ := bind_eq_ok h
    obtain rfl := Except.ok.inj h
    rfl
  obtain ⟨parent, hparent⟩ := hexists (by rw [hfour]; decide)
  obtain ⟨hsame, hall⟩ := hpoints parent hparent
  have hvertices : ReferenceElement.sideVertices ℚ .tetra4 1 =
      [[1, 0, 0], [0, 1, 0], [0, 0, 1]] := by
    simp [ReferenceElement.sideVertices, ReferenceElement.sides, ReferenceElement.corners]
  rw [hvertices, hsame, hfour] at hall
  exact ⟨rule, parent, hrule, hparent, hsame.trans hfour, hall⟩

end Rule

end Cubature
