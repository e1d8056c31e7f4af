import Cubature.Proofs.Rule.Exactness
import Cubature.Proofs.Side.Mapping

/-!
# Points inside the elements

In exact arithmetic, if the nodes of the one-dimensional rules lie strictly inside `[-1, 1]` and
their weights are positive (`Gauss.Nodes.Inside`), then the points of every product rule lie
strictly inside its element and its weights are positive (`Rule.exists_interior`).

* Tensor products: each coordinate is a node.
* Collapsed products: the coordinates add up to less than one, because each pressing leaves room
  for the next (`collapse_lt_one`).
-/

namespace Cubature

open scoped Scalar Scalar.Exact

variable {K : Type} [Field K] [LinearOrder K]

/-! ## What is inside -/

/-- All nodes lie strictly inside `[-1, 1]`, and all weights are positive. -/
structure Gauss.Nodes.Inside (nodes : Gauss.Nodes K) : Prop where
  location : ∀ x ∈ nodes.locations, -1 < x ∧ x < 1
  weight : ∀ w ∈ nodes.weights, 0 < w

instance Gauss.Nodes.instDecidableInside (nodes : Gauss.Nodes K) : Decidable nodes.Inside :=
  decidable_of_iff ((∀ x ∈ nodes.locations, -1 < x ∧ x < 1) ∧ ∀ w ∈ nodes.weights, 0 < w)
    ⟨fun h => ⟨h.1, h.2⟩, fun h => ⟨h.location, h.weight⟩⟩

/-- The point has the dimension of the reference element of a kind and lies strictly inside it:
between `-1` and `1` in each direction, or inside the simplex that the origin and the unit points
span. -/
def Kind.Inside (kind : Kind) (p : List K) : Prop :=
  kind.dim? = some p.length ∧
    match kind with
    | .arbitrary => False
    | .line | .quadrilateral | .hexahedron => ∀ x ∈ p, -1 < x ∧ x < 1
    | .triangle | .tetrahedron => (∀ x ∈ p, 0 < x) ∧ p.sum < 1

/-- Every point of the rule lies strictly inside the element of the kind, and there is a positive
weight for each. -/
structure Rule.Interior (rule : Rule K) (kind : Kind) : Prop where
  point : ∀ j < rule.npoints, ∃ p, rule.point j = .ok p ∧ kind.Inside p
  weight : ∃ ws, rule.weights = some ws ∧ ws.length = rule.npoints ∧ ∀ w ∈ ws, 0 < w

/-- The nodes lie strictly between two numbers, and their weights are positive. -/
def NodesBetween (lo hi : K) (l : List (K × K)) : Prop :=
  ∀ p ∈ l, (lo < p.1 ∧ p.1 < hi) ∧ 0 < p.2

namespace Gauss.Nodes.Inside

variable {nodes : Gauss.Nodes K} (h : nodes.Inside)

include h

theorem pairs : NodesBetween (-1) 1 nodes.pairs := by
  intro p hp
  obtain ⟨hx, hw⟩ := List.of_mem_zip hp
  exact ⟨h.location _ hx, h.weight _ hw⟩

/-- On `[0, 1]` the nodes lie strictly inside as well. -/
theorem unitPairs [IsStrictOrderedRing K] (alpha : ℕ) :
    NodesBetween 0 1 (nodes.unitPairs alpha) := by
  intro p hp
  obtain ⟨q, hq, rfl⟩ := List.mem_map.mp hp
  obtain ⟨⟨hlo, hhi⟩, hw⟩ := h.pairs q hq
  have hscale :
      0 < Scalar.powerInt (@OfNat.ofNat K 1 Scalar.instOfNat / 2) ((alpha : ℤ) + 1) := by
    rw [Gauss.Nodes.powerInt_half]
    positivity
  refine ⟨?_, mul_pos hw hscale⟩
  simp only [Scalar.Exact.ofNat_one]
  exact ⟨by linarith, by linarith⟩

end Gauss.Nodes.Inside

section Length

variable {start : ℕ → ℕ → K} {limits : Gauss.Limits K} {order : ℕ} {alpha : UInt32}
  {nodes : Gauss.Nodes K} (h : Gauss.rule start limits order alpha = .ok nodes)

include h

theorem Gauss.length_eq_of_rule : nodes.locations.length = nodes.weights.length :=
  (Gauss.length_rule h).2.1.trans (Gauss.length_rule h).2.2.symm

theorem Gauss.length_pairs_of_rule : nodes.pairs.length = order :=
  (Gauss.Nodes.length_pairs (length_eq_of_rule h)).trans (Gauss.length_rule h).2.1

theorem Gauss.length_unitPairs_of_rule (a : ℕ) : (nodes.unitPairs a).length = order :=
  (List.length_map _).trans (length_pairs_of_rule h)

end Length

/-! ## Tables -/

namespace Rule

section Tables

variable {rule : Rule K} {table : List (List K × K)} {kind : Kind} {l ls lt lr : List (K × K)}

/-- All points of the table lie strictly inside the element, and all weights are positive. -/
def Within (kind : Kind) (table : List (List K × K)) : Prop :=
  ∀ p ∈ table, kind.Inside p.1 ∧ 0 < p.2

theorem Lists.interior (h : rule.Lists table) (hlen : table.length = rule.npoints)
    (hwithin : Within kind table) : rule.Interior kind where
  point j hj := by
    have hblock : (blocks rule.dim rule.locations)[j]? = some (table[j].1) := by
      rw [h.locations_eq, blocks_flatMap h.dim_pos h.length_coords, List.getElem?_map,
        List.getElem?_eq_getElem (hlen ▸ hj), Option.map_some]
    refine ⟨table[j].1, ?_, (hwithin _ (List.getElem_mem _)).1⟩
    rw [point_eq_block h.dim_pos, hblock]
  weight := by
    refine ⟨_, h.weights_eq, by rw [List.length_map, hlen], fun w hw => ?_⟩
    obtain ⟨p, hp, rfl⟩ := List.mem_map.mp hw
    exact (hwithin p hp).2

theorem within_lineTable (h : NodesBetween (-1) 1 l) : Within .line (lineTable l) := by
  intro p hp
  obtain ⟨q, hq, rfl⟩ := List.mem_map.mp hp
  obtain ⟨hx, hw⟩ := h q hq
  exact ⟨⟨rfl, by simpa using hx⟩, hw⟩

variable [IsStrictOrderedRing K]

theorem within_squareTable (h : NodesBetween (-1) 1 l) :
    Within .quadrilateral (squareTable l) := by
  intro p hp
  simp only [squareTable, List.mem_flatMap, List.mem_map] at hp
  obtain ⟨q, hq, o, ho, rfl⟩ := hp
  obtain ⟨hx, hu⟩ := h q hq
  obtain ⟨hy, hv⟩ := h o ho
  refine ⟨⟨rfl, ?_⟩, mul_pos hu hv⟩
  simp only [List.forall_mem_cons]
  exact ⟨hx, hy, List.forall_mem_nil _⟩

theorem within_cubeTable (h : NodesBetween (-1) 1 l) : Within .hexahedron (cubeTable l) := by
  intro p hp
  simp only [cubeTable, List.mem_flatMap, List.mem_map] at hp
  obtain ⟨q, hq, o, ho, m, hm, rfl⟩ := hp
  obtain ⟨hx, hu⟩ := h q hq
  obtain ⟨hy, hv⟩ := h o ho
  obtain ⟨hz, hw⟩ := h m hm
  refine ⟨⟨rfl, ?_⟩, mul_pos (mul_pos hu hv) hw⟩
  simp only [List.forall_mem_cons]
  exact ⟨hx, hy, hz, List.forall_mem_nil _⟩

/-- Pressing a coordinate below one against another leaves the sum of both below one. -/
theorem collapse_lt_one {x y : K} (hx : x < 1) (hy : y < 1) : x * (1 - y) + y < 1 := by
  have hroom : x * (1 - y) < 1 - y := mul_lt_of_lt_one_left (sub_pos.mpr hy) hx
  linarith

theorem within_triangleTable (hs : NodesBetween 0 1 ls) (ht : NodesBetween 0 1 lt) :
    Within .triangle (triangleTable ls lt) := by
  intro p hp
  simp only [triangleTable, List.mem_flatMap, List.mem_map] at hp
  obtain ⟨q, hq, o, ho, rfl⟩ := hp
  obtain ⟨⟨hy, hy'⟩, hv⟩ := ht q hq
  obtain ⟨⟨hx, hx'⟩, hu⟩ := hs o ho
  refine ⟨⟨rfl, ?_⟩, mul_pos hu hv⟩
  simp only [List.forall_mem_cons, List.sum_cons, List.sum_nil, add_zero, Scalar.Exact.ofNat_one]
  exact ⟨⟨mul_pos hx (sub_pos.mpr hy'), hy, List.forall_mem_nil _⟩, collapse_lt_one hx' hy'⟩

/-- The first two coordinates are those of a point of the triangle, pressed by the third. -/
theorem within_tetrahedronTable (hs : NodesBetween 0 1 ls) (ht : NodesBetween 0 1 lt)
    (hr : NodesBetween 0 1 lr) : Within .tetrahedron (tetrahedronTable ls lt lr) := by
  intro p hp
  simp only [tetrahedronTable, List.mem_flatMap, List.mem_map] at hp
  obtain ⟨q, hq, o, ho, m, hm, rfl⟩ := hp
  obtain ⟨⟨hz, hz'⟩, hw⟩ := hr q hq
  obtain ⟨⟨hy, hy'⟩, hv⟩ := ht o ho
  obtain ⟨⟨hx, hx'⟩, hu⟩ := hs m hm
  have hty : 0 < 1 - o.1 := sub_pos.mpr hy'
  have htz : 0 < 1 - q.1 := sub_pos.mpr hz'
  have hsum : m.1 * (1 - o.1) * (1 - q.1) + (o.1 * (1 - q.1) + q.1) < 1 :=
    calc m.1 * (1 - o.1) * (1 - q.1) + (o.1 * (1 - q.1) + q.1)
        = (m.1 * (1 - o.1) + o.1) * (1 - q.1) + q.1 := by ring
      _ < 1 := collapse_lt_one (collapse_lt_one hx' hy') hz'
  refine ⟨⟨rfl, ?_⟩, mul_pos (mul_pos hu hv) hw⟩
  simp only [List.forall_mem_cons, List.sum_cons, List.sum_nil, add_zero, Scalar.Exact.ofNat_one]
  exact ⟨⟨mul_pos (mul_pos hx hty) htz, mul_pos hy htz, hz, List.forall_mem_nil _⟩, hsum⟩

end Tables

/-! ## Generated rules -/

section Generated

variable {start : ℕ → ℕ → K} {limits : Gauss.Limits K} {order : ℕ} {s t r : Gauss.Nodes K}
  {kind : Kind}

section Line

variable (hs : Gauss.rule start limits order 0 = .ok s) (inside_s : s.Inside)

include hs inside_s

theorem interior_line : (line order s).Interior .line := by
  have hlen := Gauss.length_eq_of_rule hs
  have hlists : (line order s).Lists (lineTable s.pairs) :=
    lists_line (Gauss.Nodes.locations_eq_map hlen) (Gauss.Nodes.weights_eq_map hlen)
  refine hlists.interior ?_ (within_lineTable inside_s.pairs)
  rw [length_lineTable, Gauss.length_pairs_of_rule hs]
  rfl

variable [IsStrictOrderedRing K]

theorem interior_quadrilateral :
    (quadrilateral (line order s)).Interior .quadrilateral := by
  have hlen := Gauss.length_eq_of_rule hs
  have hlists : (quadrilateral (line order s)).Lists (squareTable s.pairs) :=
    lists_quadrilateral (Gauss.Nodes.locations_eq_map hlen) (Gauss.Nodes.weights_eq_map hlen)
  refine hlists.interior ?_ (within_squareTable inside_s.pairs)
  rw [length_squareTable, Gauss.length_pairs_of_rule hs]
  rfl

theorem interior_hexahedron : (hexahedron (line order s)).Interior .hexahedron := by
  have hlen := Gauss.length_eq_of_rule hs
  have hlists : (hexahedron (line order s)).Lists (cubeTable s.pairs) :=
    lists_hexahedron (Gauss.Nodes.locations_eq_map hlen) (Gauss.Nodes.weights_eq_map hlen)
  refine hlists.interior ?_ (within_cubeTable inside_s.pairs)
  rw [length_cubeTable, Gauss.length_pairs_of_rule hs]
  rfl

variable (ht : Gauss.rule start limits order 1 = .ok t) (inside_t : t.Inside)

include ht inside_t

theorem interior_triangle : (triangle order (s.onUnit 0) (t.onUnit 1)).Interior .triangle := by
  have hlists_s := lists_onUnit (Gauss.length_eq_of_rule hs) 0
  have hlists_t := lists_onUnit (Gauss.length_eq_of_rule ht) 1
  refine (lists_triangle hlists_s hlists_t).interior ?_
    (within_triangleTable (inside_s.unitPairs 0) (inside_t.unitPairs 1))
  rw [length_triangleTable, Gauss.length_unitPairs_of_rule hs, Gauss.length_unitPairs_of_rule ht]
  rfl

theorem interior_tetrahedron (hr : Gauss.rule start limits order 2 = .ok r)
    (inside_r : r.Inside) :
    (tetrahedron order (s.onUnit 0) (t.onUnit 1) (r.onUnit 2)).Interior .tetrahedron := by
  have hlists_s := lists_onUnit (Gauss.length_eq_of_rule hs) 0
  have hlists_t := lists_onUnit (Gauss.length_eq_of_rule ht) 1
  have hlists_r := lists_onUnit (Gauss.length_eq_of_rule hr) 2
  refine (lists_tetrahedron hlists_s hlists_t hlists_r).interior ?_
    (within_tetrahedronTable (inside_s.unitPairs 0) (inside_t.unitPairs 1) (inside_r.unitPairs 2))
  rw [length_tetrahedronTable, Gauss.length_unitPairs_of_rule hs, Gauss.length_unitPairs_of_rule ht,
    Gauss.length_unitPairs_of_rule hr]
  rfl

end Line

/-- Every kind of rule but the arbitrary ones is generated, with all its points, and lies strictly
inside its element. -/
theorem exists_interior [IsStrictOrderedRing K] (hs : Gauss.rule start limits order 0 = .ok s)
    (ht : Gauss.rule start limits order 1 = .ok t) (hr : Gauss.rule start limits order 2 = .ok r)
    (inside_s : s.Inside) (inside_t : t.Inside) (inside_r : r.Inside) (hkind : kind ≠ .arbitrary) :
    ∃ rule, generate (Gauss.rule start limits order) kind order = .ok rule ∧
      kind.pointCount? order = some rule.npoints ∧ rule.Interior kind := by
  cases kind with
  | arbitrary => exact absurd rfl hkind
  | line => exact ⟨_, by rw [generate, hs]; rfl, rfl, interior_line hs inside_s⟩
  | quadrilateral =>
    exact ⟨_, by rw [generate, hs]; rfl, rfl, interior_quadrilateral hs inside_s⟩
  | hexahedron => exact ⟨_, by rw [generate, hs]; rfl, rfl, interior_hexahedron hs inside_s⟩
  | triangle =>
    exact ⟨_, by rw [generate, hs, ht]; rfl, rfl, interior_triangle hs inside_s ht inside_t⟩
  | tetrahedron =>
    exact ⟨_, by rw [generate, hs, ht, hr]; rfl, rfl,
      interior_tetrahedron hs inside_s ht inside_t hr inside_r⟩

end Generated

end Rule

end Cubature
