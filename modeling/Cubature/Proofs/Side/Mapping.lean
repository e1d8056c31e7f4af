import Cubature.Proofs.Rule.Shape
import Cubature.Proofs.Rule.Table
import Cubature.Side.Mapping

/-!
# Rules carried into an element

A side rule is carried into the element point by point, by interpolation of the side's corners.

* `Rule.point_eq_block`, `Rule.Fits.coords_points`: one point, all points and the blocks of the flat
  list of coordinates are the same thing.
* `carry`, `mapPoint_eq`: the weighted sum of the corners, written out for each kind of side, is
  where a point goes; other kinds and other numbers of corners are refused.
* `Rule.IsImage`, `Rule.Fits.isImage_carried`: the carried rule has the images of the points of the
  side rule and its weights, so its sums are those of the side rule over the composed functions.
-/

namespace Cubature

open scoped Scalar

/-! ## Points and blocks -/

theorem blocksAfter_getElem? {α : Type} (size count : Nat) (xs : List α) (j : Nat) :
    (blocksAfter size count xs #[])[j]? =
      if j < count then some ((xs.drop (j * size)).take size) else none := by
  induction count generalizing xs j with
  | zero => simp [blocksAfter]
  | succ count ih =>
    rw [blocksAfter_succ]
    cases j with
    | zero => simp
    | succ j =>
      rw [List.getElem?_cons_succ, ih, List.drop_drop, Nat.succ_mul, Nat.add_comm size]
      simp

theorem blocks_getElem? {α : Type} (size : Nat) (xs : List α) (j : Nat) :
    (blocks size xs)[j]? =
      if j < xs.length / size then some ((xs.drop (j * size)).take size) else none :=
  blocksAfter_getElem? size _ xs j

namespace Rule

variable {α : Type} {r : Rule α}

/-- A point is a block of coordinates; past the last block there is none. -/
theorem point_eq_block (hdim : 0 < r.dim) (j : Nat) :
    r.point j = match (blocks r.dim r.locations)[j]? with
      | some coords => .ok coords
      | none => .error (.aborted .index) := by
  have hlt : (j + 1) * r.dim ≤ r.locations.length ↔ j < r.locations.length / r.dim :=
    (Nat.le_div_iff_mul_le hdim).symm
  rw [blocks_getElem?, point]
  by_cases h : j < r.locations.length / r.dim
  · rw [if_pos (hlt.mpr h), if_pos h]
  · rw [if_neg (mt hlt.mp h), if_neg h]

section Fits

variable {kind : Kind} {order : Nat} (h : r.Fits kind order)

include h

theorem Fits.length_blocks : (blocks r.dim r.locations).length = r.npoints := by
  rw [Cubature.length_blocks, h.length_locations, Nat.mul_div_cancel _ h.dim_pos]

/-- No weight is missing, so no point is left out. -/
theorem Fits.coords_points : r.points.map Point.coords = blocks r.dim r.locations := by
  obtain ⟨ws, hws, hlen⟩ := h.exists_weights
  unfold points
  rw [hws]
  simp only [List.map_map, Function.comp_def]
  exact List.map_fst_zip (Nat.le_of_eq (h.length_blocks.trans hlen.symm))

theorem Fits.length_points : r.points.length = r.npoints := by
  rw [← List.length_map Point.coords, h.coords_points, h.length_blocks]

end Fits

end Rule

/-! ## Traversals -/

section Traversal

variable {β γ : Type} {f : β → Except Failure γ} {l : List β}

theorem mapM_cons (f : β → Except Failure γ) (b : β) (l : List β) :
    (b :: l).mapM f = match f b with
      | .error cause => .error cause
      | .ok c => (l.mapM f).map (c :: ·) := by
  rw [List.mapM_cons]
  cases f b with
  | error => rfl
  | ok c => cases l.mapM f <;> rfl

/-- Every part succeeds. -/
theorem mapM_eq_ok {g : β → γ} (h : ∀ b ∈ l, f b = .ok (g b)) : l.mapM f = .ok (l.map g) := by
  induction l with
  | nil => rfl
  | cons b l ih =>
    rw [mapM_cons, h b List.mem_cons_self, ih fun c hc => h c (List.mem_cons_of_mem b hc)]
    rfl

/-- The first part that fails decides. -/
theorem mapM_eq_error {before later : List β} {b : β} {cause : Failure}
    (hbefore : ∀ c ∈ before, ∃ y, f c = .ok y) (h : f b = .error cause) :
    (before ++ b :: later).mapM f = .error cause := by
  induction before with
  | nil =>
    rw [List.nil_append, mapM_cons, h]
  | cons c before ih =>
    obtain ⟨y, hy⟩ := hbefore c List.mem_cons_self
    rw [List.cons_append, mapM_cons, hy, ih fun d hd => hbefore d (List.mem_cons_of_mem c hd)]
    rfl

end Traversal

/-! ## Interpolation -/

/-- The number of corners of a side of a kind; no points are carried from sides of other kinds. -/
def Kind.cornerCount? : Kind → Option Nat
  | .line => some 2
  | .triangle => some 3
  | .quadrilateral => some 4
  | .arbitrary | .hexahedron | .tetrahedron => none

section Interpolation

variable {α : Type} [Scalar α]

/-- Where the point `p` of a side lies in the element. In each direction the coordinates of the
corners are added up, the first corner first, each times its weight at `p`: the weights are linear
on lines and triangles and bilinear on squares. -/
def carry (dim : Nat) (kind : Kind) (corners : List (List α)) (p : List α) : List α :=
  let s := p[0]?.getD 0
  let t := p[1]?.getD 0
  (List.range dim).map fun d =>
    let x := fun corner : List α => corner[d]?.getD 0
    match kind, corners with
    | .line, [a, b] => -0 + 1 / 2 * (1 - s) * x a + 1 / 2 * (1 + s) * x b
    | .triangle, [a, b, c] => -0 + (1 - s - t) * x a + s * x b + t * x c
    | .quadrilateral, [a, b, c, e] =>
      -0 + 1 / 4 * (1 - s) * (1 - t) * x a + 1 / 4 * (1 + s) * (1 - t) * x b
        + 1 / 4 * (1 + s) * (1 + t) * x c + 1 / 4 * (1 - s) * (1 + t) * x e
    | _, _ => -0

theorem length_carry (dim : Nat) (kind : Kind) (corners : List (List α)) (p : List α) :
    (carry dim kind corners p).length = dim := by
  simp [carry]

/-- A point is refused if no points are carried from sides of the kind, or if the side has another
number of corners. -/
theorem mapPoint_eq (dim : Nat) (kind : Kind) (corners : List (List α)) (p : Point α) :
    mapPoint dim kind corners p = match kind.cornerCount? with
      | none => .error (.rejected (.unsupported "side mapping" kind.name))
      | some n =>
        if n = corners.length then .ok (carry dim kind corners p.coords)
        else .error (.rejected (.shapeMismatch "side vertices" n corners.length)) := by
  cases kind with
  | arbitrary | hexahedron | tetrahedron => rfl
  | line =>
    by_cases h : 2 = corners.length
    · match corners, h with
      | [a, b], _ => rfl
    · exact (if_neg h).trans (if_neg h).symm
  | triangle =>
    by_cases h : 3 = corners.length
    · match corners, h with
      | [a, b, c], _ => rfl
    · exact (if_neg h).trans (if_neg h).symm
  | quadrilateral =>
    by_cases h : 4 = corners.length
    · match corners, h with
      | [a, b, c, e], _ => rfl
    · exact (if_neg h).trans (if_neg h).symm

/-- All points are carried, or the first one is refused. -/
theorem mapM_mapPoint {points : List (Point α)} (hpoints : points ≠ []) (dim : Nat) (kind : Kind)
    (corners : List (List α)) :
    points.mapM (mapPoint dim kind corners) = match kind.cornerCount? with
      | none => .error (.rejected (.unsupported "side mapping" kind.name))
      | some n =>
        if n = corners.length then .ok (points.map fun p => carry dim kind corners p.coords)
        else .error (.rejected (.shapeMismatch "side vertices" n corners.length)) := by
  obtain ⟨p, rest, rfl⟩ := List.exists_cons_of_ne_nil hpoints
  cases hcount : kind.cornerCount? with
  | none => rw [mapM_cons, mapPoint_eq, hcount]
  | some n =>
    by_cases hn : n = corners.length
    · simp only [if_pos hn]
      refine mapM_eq_ok fun q _ => ?_
      rw [mapPoint_eq, hcount]
      exact if_pos hn
    · rw [mapM_cons, mapPoint_eq, hcount]
      simp only [if_neg hn]

end Interpolation

/-! ## Rules -/

section Rules

variable {α : Type} [Scalar α] {t : Topology α} {i order : Nat} {kind : Kind} {rule parent : Rule α}
  {corners : List (List α)}

/-- A rule carried into an element: the images of its points with its weights. -/
def Rule.carried (rule : Rule α) (dim : Nat) (corners : List (List α)) : Rule α :=
  { kind := .arbitrary
    order := rule.npoints
    npoints := rule.npoints
    dim
    locations := (blocks rule.dim rule.locations).flatMap (carry dim rule.kind corners)
    weights := rule.weights }

theorem parentRule_of_error {cause : Failure} (h : t.sideCorners i = .error cause) (rule : Rule α) :
    parentRule t i rule = .error cause := by
  unfold parentRule
  rw [h]
  rfl

/-- A rule with points is carried into the element if its kind has as many corners as the side. -/
theorem parentRule_eq (hr : rule.Fits kind order) (hpos : 1 ≤ order) (hdim : 0 < t.dim)
    (hcorners : t.sideCorners i = .ok corners) (hsize : rule.npoints * t.dim < Size.tableLimit) :
    parentRule t i rule = match kind.cornerCount? with
      | none => .error (.rejected (.unsupported "side mapping" kind.name))
      | some n =>
        if n = corners.length then .ok (rule.carried t.dim corners)
        else .error (.rejected (.shapeMismatch "side vertices" n corners.length)) := by
  have hpoints : rule.points ≠ [] := by
    rw [← List.length_pos_iff, hr.length_points]
    exact hr.npoints_pos hpos
  have hflat : (rule.points.map fun p => carry t.dim kind corners p.coords).flatten =
      (rule.carried t.dim corners).locations := by
    rw [Rule.carried, hr.kind_eq, ← hr.coords_points, List.flatMap_map, List.flatMap_def]
  have hlen : (rule.carried t.dim corners).locations.length = rule.npoints * t.dim := by
    simp [Rule.carried, length_carry, hr.length_blocks, List.map_const']
  have hw : ∀ ws, rule.weights = some ws → ws.length = rule.npoints := by
    obtain ⟨ws, hws, hlen⟩ := hr.exists_weights
    intro ws' hws'
    obtain rfl := Option.some.inj (hws.symm.trans hws')
    exact hlen
  unfold parentRule
  simp only [hcorners, Size.word_eq_ok hsize, hr.kind_eq, mapM_mapPoint hpoints, bind, Except.bind,
    Size.table_eq_ok hsize]
  cases kind.cornerCount? with
  | none => rfl
  | some n =>
    by_cases hn : n = corners.length
    · simp only [if_pos hn, hflat]
      exact Rule.arbitrary_eq_ok hdim hsize hlen hw
    · simp only [if_neg hn]

/-- A rule that was carried: the side has corners, the coordinates fit one table, and every point
was carried. -/
theorem parentRule_cases (h : parentRule t i rule = .ok parent) :
    ∃ corners mapped, t.sideCorners i = .ok corners ∧ rule.npoints * t.dim < Size.tableLimit ∧
      rule.points.mapM (mapPoint t.dim rule.kind corners) = .ok mapped ∧
      Rule.arbitrary t.dim rule.npoints mapped.flatten rule.weights = .ok parent := by
  obtain ⟨corners, hcorners, h₁⟩ := bind_eq_ok h
  obtain ⟨size, hword, h₂⟩ := bind_eq_ok h₁
  obtain ⟨_, htable, h₃⟩ := bind_eq_ok h₂
  obtain ⟨mapped, hmapped, h₄⟩ := bind_eq_ok h₃
  obtain rfl : rule.npoints * t.dim = size := by
    unfold Size.word at hword
    split at hword <;> cases hword
    rfl
  exact ⟨corners, mapped, hcorners, Size.table_ok htable, hmapped, h₄⟩

/-- The carried rule has the images of the points, for as many corners as its kind has. -/
theorem parentRule_eq_carried (hr : rule.Fits kind order) (hpos : 1 ≤ order)
    (h : parentRule t i rule = .ok parent) :
    ∃ corners, t.sideCorners i = .ok corners ∧ kind.cornerCount? = some corners.length ∧
      parent = rule.carried t.dim corners := by
  obtain ⟨corners, _, hcorners, hsize, -, harbitrary⟩ := parentRule_cases h
  have hdim : 0 < t.dim := Nat.pos_of_ne_zero (Rule.arbitrary_ok harbitrary).2.1
  rw [parentRule_eq hr hpos hdim hcorners hsize] at h
  split at h
  · cases h
  rename_i n hn
  split at h <;> cases h
  rename_i hlen
  exact ⟨corners, hcorners, hlen ▸ hn, rfl⟩

/-- A rule has the images of the points of another under `φ`, in order, and its weights. Its sums
are the sums over the other of the functions composed with `φ`. -/
structure Rule.IsImage (image rule : Rule α) (φ : List α → List α) : Prop where
  npoints_eq : image.npoints = rule.npoints
  weights_eq : image.weights = rule.weights
  point_eq : ∀ j, image.point j = (rule.point j).map φ
  integrate_eq : ∀ f : List α → α, image.integrate f = rule.integrate fun p => f (φ p)

/-- The blocks of a carried rule are the images of the points. -/
theorem Rule.blocks_carried {dim : Nat} (hdim : 0 < dim) (rule : Rule α)
    (corners : List (List α)) :
    blocks (rule.carried dim corners).dim (rule.carried dim corners).locations =
      (blocks rule.dim rule.locations).map (carry dim rule.kind corners) :=
  blocks_flatMap hdim fun _ _ => length_carry ..

theorem Rule.Fits.isImage_carried (hr : rule.Fits kind order) {dim : Nat} (hdim : 0 < dim)
    (corners : List (List α)) :
    (rule.carried dim corners).IsImage rule (carry dim kind corners) where
  npoints_eq := rfl
  weights_eq := rfl
  point_eq j := by
    have hdim' : 0 < (rule.carried dim corners).dim := hdim
    rw [Rule.point_eq_block hdim', Rule.point_eq_block hr.dim_pos, Rule.blocks_carried hdim,
      hr.kind_eq, List.getElem?_map]
    cases (blocks rule.dim rule.locations)[j]? <;> rfl
  integrate_eq f := by
    obtain ⟨ws, hws, -⟩ := hr.exists_weights
    have hws' : (rule.carried dim corners).weights = some ws := hws
    rw [Rule.integrate, Rule.integrate, hws, hws']
    simp only [Rule.blocks_carried hdim, hr.kind_eq, List.zip_map_left, List.map_map,
      Function.comp_def, Prod.map, id_eq]

end Rules

/-! ## Corners -/

section Corners

variable {α : Type} {t : Topology α} {i : Nat} {corners : List (List α)}

theorem Topology.vertex_eq_ok_iff {v : Nat} {coords : List α} :
    t.vertex v = .ok coords ↔ t.vertexCoords? v = some coords ∧ coords.length = t.dim := by
  unfold Topology.vertex
  cases t.vertexCoords? v with
  | none => simp
  | some coords' =>
    by_cases h : coords'.length = t.dim
    · simp only [if_pos h, Except.ok.injEq, Option.some.injEq]
      exact ⟨fun he => ⟨he, he ▸ h⟩, And.left⟩
    · simp only [if_neg h, reduceCtorEq, Option.some.injEq, false_iff]
      rintro ⟨rfl, hlen⟩
      exact h hlen

theorem Topology.corners_of_mapM {vertices : List Nat} (h : vertices.mapM t.vertex = .ok corners) :
    vertices.map t.vertexCoords? = corners.map some := by
  induction vertices generalizing corners with
  | nil =>
    cases h
    rfl
  | cons v vertices ih =>
    rw [mapM_cons] at h
    cases hv : t.vertex v with
    | error => rw [hv] at h; cases h
    | ok coords =>
      rw [hv] at h
      cases hrest : vertices.mapM t.vertex with
      | error => rw [hrest] at h; cases h
      | ok rest =>
        rw [hrest] at h
        cases h
        rw [List.map_cons, List.map_cons, ih hrest, (vertex_eq_ok_iff.mp hv).1]

/-- The corners of a side are the coordinates of its vertices. -/
theorem Topology.sideCorners_ok (h : t.sideCorners i = .ok corners) :
    ∃ vertices, t.sideVertices? i = some vertices ∧
      vertices.map t.vertexCoords? = corners.map some := by
  unfold Topology.sideCorners at h
  cases hv : t.sideVertices? i with
  | none => rw [hv] at h; cases h
  | some vertices =>
    rw [hv] at h
    exact ⟨vertices, rfl, corners_of_mapM h⟩

end Corners

end Cubature
