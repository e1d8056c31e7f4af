import Cubature.Gauss.Rule
import Cubature.Rule.Product

/-!
# Shapes of built rules

How many points, coordinates and weights a rule has, read off its kind and order
(`Rule.Fits`), for rules of every order.

* `Gauss.length_rule`: a one-dimensional rule has as many nodes and weights as were asked for.
* `Rule.arbitrary_ok`, `Rule.arbitrary_eq_ok`: what a rule from supplied coordinates is, and when
  there is one.
* `Rule.fits_line`, `Rule.fits_quadrilateral`, `Rule.fits_hexahedron`, `Rule.fits_triangle`,
  `Rule.fits_tetrahedron`: the product rules have the shape of their kind.
-/

namespace Cubature

/-- A sequence that succeeds: both parts do. -/
theorem bind_eq_ok {β γ : Type} {x : Except Failure β} {g : β → Except Failure γ} {c : γ}
    (h : (x >>= g) = .ok c) : ∃ b, x = .ok b ∧ g b = .ok c := by
  cases x with
  | error => cases h
  | ok b => exact ⟨b, rfl, h⟩

theorem Size.table_ok {entries : Nat} (h : Size.table entries = .ok ()) :
    entries < Size.tableLimit := by
  unfold Size.table at h
  split at h
  · assumption
  · cases h

theorem Size.table_eq_ok {entries : Nat} (h : entries < Size.tableLimit) :
    Size.table entries = .ok () := if_pos h

/-- A count below the limit of tables is a word. -/
theorem Size.word_eq_ok {n : Nat} (h : n < Size.tableLimit) : Size.word n = .ok n := by
  have : n < Size.wordCount := Nat.lt_trans h (by decide)
  simp [Size.word, this]

/-- A point count below the limit of tables is the number of points. -/
theorem Kind.numPoints_eq_ok {kind : Kind} {order n : Nat}
    (hcount : kind.pointCount? order = some n) (hn : n < Size.tableLimit) :
    kind.numPoints order = .ok (some n) := by
  unfold Kind.numPoints
  rw [hcount]
  simp only [Size.word_eq_ok hn]
  rfl

namespace Gauss

/-- A one-dimensional rule is made only for a positive number of points that fits a table, and has
that many nodes and weights. -/
theorem length_rule {α : Type} [Scalar α] {start : Nat → Nat → α} {limits : Limits α} {n : Nat}
    {alpha : UInt32} {nodes : Nodes α} (h : rule start limits n alpha = .ok nodes) :
    n < Size.tableLimit ∧ nodes.locations.length = n ∧ nodes.weights.length = n := by
  unfold rule at h
  split at h
  · cases h
  split at h
  · cases h
  rename_i ht
  refine ⟨Size.table_ok ht, ?_⟩
  split at h
  · cases h
    exact length_legendreNodes _ _ _
  split at h <;> cases h
  exact length_jacobiNodes _ _ _ _

theorem pos_of_rule {α : Type} [Scalar α] {start : Nat → Nat → α} {limits : Limits α} {n : Nat}
    {alpha : UInt32} {nodes : Nodes α} (h : rule start limits n alpha = .ok nodes) : 1 ≤ n := by
  rcases Nat.eq_zero_or_pos n with rfl | hn
  · cases h
  · exact hn

/-- Moving a rule to `[0, 1]` keeps its size. -/
theorem length_onUnit {α : Type} [Scalar α] {start : Nat → Nat → α} {limits : Limits α} {n : Nat}
    {alpha : UInt32} {nodes : Nodes α} (h : rule start limits n alpha = .ok nodes) (a : Nat) :
    (nodes.onUnit a).locations.length = n ∧ (nodes.onUnit a).weights.length = n :=
  ⟨(List.length_map _).trans (length_rule h).2.1, (List.length_map _).trans (length_rule h).2.2⟩

end Gauss

namespace Rule

/-- The rule has the kind and the order, and as many points, coordinates and weights as rules of
that kind and order have. -/
structure Fits {α : Type} (kind : Kind) (order : Nat) (r : Rule α) : Prop where
  kind_eq : r.kind = kind
  order_eq : r.order = order
  numPoints_eq : kind.numPoints order = .ok (some r.npoints)
  dim_eq : kind.dim? = some r.dim
  length_locations : r.locations.length = r.npoints * r.dim
  length_weights : r.weights.map List.length = some r.npoints

variable {α : Type}

section Fits

variable {r : Rule α} {kind : Kind} {order : Nat} (h : r.Fits kind order)

include h

theorem Fits.dim_pos : 0 < r.dim := by
  have hdim := h.dim_eq
  cases kind <;> simp only [Kind.dim?, reduceCtorEq, Option.some.injEq] at hdim <;> omega

theorem Fits.ne_arbitrary : kind ≠ .arbitrary := by
  rintro rfl
  cases h.dim_eq

theorem Fits.pointCount_eq : kind.pointCount? order = some r.npoints := by
  have hcount := h.numPoints_eq
  unfold Kind.numPoints Size.word at hcount
  split at hcount
  · cases hcount
  · rename_i n hn
    split at hcount <;> cases hcount
    exact hn

theorem Fits.npoints_lt : r.npoints < Size.wordCount := by
  have hcount := h.numPoints_eq
  simp only [Kind.numPoints, h.pointCount_eq, Size.word] at hcount
  split at hcount
  · assumption
  · cases hcount

theorem Fits.npoints_pos (hpos : 1 ≤ order) : 0 < r.npoints := by
  have hsq : 0 < order * order := Nat.mul_pos hpos hpos
  have hcube : 0 < order * order * order := Nat.mul_pos hsq hpos
  have hcount := h.pointCount_eq
  cases kind <;> simp only [Kind.pointCount?, reduceCtorEq, Option.some.injEq] at hcount <;> omega

theorem Fits.exists_weights : ∃ ws, r.weights = some ws ∧ ws.length = r.npoints :=
  Option.map_eq_some_iff.mp h.length_weights

end Fits

/-- A rule from supplied coordinates holds them as they are, and their numbers fit. -/
theorem arbitrary_ok {dim npoints : Nat} {coords : List α} {weights : Option (List α)}
    {r : Rule α} (h : arbitrary dim npoints coords weights = .ok r) :
    r = ⟨.arbitrary, npoints, npoints, dim, coords, weights⟩ ∧ dim ≠ 0 ∧
      coords.length = npoints * dim ∧ ∀ ws, weights = some ws → ws.length = npoints := by
  unfold arbitrary Size.word at h
  split at h
  · cases h
  rename_i hdim
  split at h
  · cases h
  rename_i size hsize
  split at hsize <;> cases hsize
  split at h
  · cases h
  rename_i hlen
  split at h
  · split at h <;> cases h
    rename_i hws
    exact ⟨rfl, hdim, by simpa using hlen, fun _ e => by cases e; simpa using hws⟩
  · cases h
    exact ⟨rfl, hdim, by simpa using hlen, by simp⟩

/-- A rule from supplied coordinates is made if their numbers fit. -/
theorem arbitrary_eq_ok {dim npoints : Nat} {coords : List α} {weights : Option (List α)}
    (hdim : 0 < dim) (hsize : npoints * dim < Size.tableLimit)
    (hlen : coords.length = npoints * dim) (hw : ∀ ws, weights = some ws → ws.length = npoints) :
    arbitrary dim npoints coords weights =
      .ok ⟨.arbitrary, npoints, npoints, dim, coords, weights⟩ := by
  unfold arbitrary
  rw [if_neg (Nat.ne_of_gt hdim), Size.word_eq_ok hsize]
  simp only [hlen, ne_eq, not_true_eq_false, if_false]
  cases weights with
  | none => rfl
  | some ws => simp [hw ws rfl]

theorem fits_line {order : Nat} {nodes : Gauss.Nodes α} (horder : order < Size.tableLimit)
    (hl : nodes.locations.length = order) (hw : nodes.weights.length = order) :
    (line order nodes).Fits .line order where
  kind_eq := rfl
  order_eq := rfl
  numPoints_eq := Kind.numPoints_eq_ok rfl horder
  dim_eq := rfl
  length_locations := by simp [line, hl]
  length_weights := by simp [line, hw]

/-- The lengths of a line rule are its order. -/
theorem Fits.length_line {order : Nat} {r : Rule α} (h : r.Fits .line order) :
    r.npoints = order ∧ r.locations.length = order ∧ r.weightList.length = order := by
  have hn : r.npoints = order := (Option.some.inj h.pointCount_eq).symm
  have hd : r.dim = 1 := (Option.some.inj h.dim_eq).symm
  obtain ⟨ws, hws, hlen⟩ := h.exists_weights
  refine ⟨hn, by rw [h.length_locations, hn, hd, Nat.mul_one], ?_⟩
  rw [weightList, hws, Option.getD_some, hlen, hn]

variable [Scalar α]

theorem fits_quadrilateral {order : Nat} {r : Rule α} (h : r.Fits .line order)
    (hsize : order * order < Size.tableLimit) : (quadrilateral r).Fits .quadrilateral order := by
  obtain ⟨hn, hl, hw⟩ := h.length_line
  refine ⟨rfl, h.order_eq, ?_, rfl, ?_, ?_⟩
  · exact Kind.numPoints_eq_ok (by simp [Kind.pointCount?, quadrilateral, hn])
      (by simpa [quadrilateral, hn] using hsize)
  · simp [quadrilateral, hl, hn, List.map_const', Nat.mul_assoc]
  · simp [quadrilateral, hw, hn, List.map_const']

theorem fits_hexahedron {order : Nat} {r : Rule α} (h : r.Fits .line order)
    (hsize : order * order * order < Size.tableLimit) : (hexahedron r).Fits .hexahedron order := by
  obtain ⟨hn, hl, hw⟩ := h.length_line
  refine ⟨rfl, h.order_eq, ?_, rfl, ?_, ?_⟩
  · exact Kind.numPoints_eq_ok (by simp [Kind.pointCount?, hexahedron, hn])
      (by simpa [hexahedron, hn] using hsize)
  · simp [hexahedron, hl, hn, List.map_const', Nat.mul_assoc]
  · simp [hexahedron, hw, hn, List.map_const', Nat.mul_assoc]

theorem fits_triangle {order : Nat} {s t : UnitRule α} (hs : s.locations.length = order)
    (ht : t.locations.length = order) (hu : s.weights.length = order)
    (hv : t.weights.length = order) (hsize : order * order < Size.tableLimit) :
    (triangle order s t).Fits .triangle order := by
  refine ⟨rfl, rfl, Kind.numPoints_eq_ok rfl hsize, rfl, ?_, ?_⟩
  · simp [triangle, hs, ht, List.map_const', Nat.mul_assoc]
  · simp [triangle, hu, hv, List.map_const']

theorem fits_tetrahedron {order : Nat} {s t r : UnitRule α} (hs : s.locations.length = order)
    (ht : t.locations.length = order) (hr : r.locations.length = order)
    (hu : s.weights.length = order) (hv : t.weights.length = order)
    (hw : r.weights.length = order) (hsize : order * order * order < Size.tableLimit) :
    (tetrahedron order s t r).Fits .tetrahedron order := by
  refine ⟨rfl, rfl, Kind.numPoints_eq_ok rfl hsize, rfl, ?_, ?_⟩
  · simp [tetrahedron, hs, ht, hr, List.map_const', Nat.mul_assoc]
  · simp [tetrahedron, hu, hv, hw, List.map_const', Nat.mul_assoc]

end Rule

end Cubature
