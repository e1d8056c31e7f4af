import Cubature.Rule.Basic

/-!
# Views of a rule

The points of a rule one by one, all together, as a matrix, and as a weighted sum.

* `Rule.point`: the coordinates of one point.
* `Rule.points`: every point with its weight.
* `Rule.coordMatrix`: the coordinates as a matrix.
* `Rule.integrate`: the weighted sum of a function over the points.
-/

namespace Cubature

/-- The next `count` blocks of `size` entries, after the ones in `done`. -/
def blocksAfter {α : Type} (size : Nat) : Nat → List α → Array (List α) → List (List α)
  | 0, _, done => done.toList
  | count + 1, xs, done => blocksAfter size count (xs.drop size) (done.push (xs.take size))

/-- A list cut into blocks of `size` entries; what does not fill a block is left out. -/
def blocks {α : Type} (size : Nat) (xs : List α) : List (List α) :=
  blocksAfter size (xs.length / size) xs #[]

theorem blocksAfter_eq {α : Type} (size count : Nat) (xs : List α) (done : Array (List α)) :
    blocksAfter size count xs done = done.toList ++ blocksAfter size count xs #[] := by
  induction count generalizing xs done with
  | zero => simp [blocksAfter]
  | succ count ih =>
    rw [blocksAfter, blocksAfter, ih, ih _ (#[].push _)]
    simp

theorem length_blocksAfter {α : Type} (size count : Nat) (xs : List α) (done : Array (List α)) :
    (blocksAfter size count xs done).length = done.size + count := by
  induction count generalizing xs done with
  | zero => simp [blocksAfter]
  | succ count ih =>
    simp [blocksAfter, ih]
    omega

theorem length_blocks {α : Type} (size : Nat) (xs : List α) :
    (blocks size xs).length = xs.length / size := by
  simp [blocks, length_blocksAfter]

/-- A point of a rule. The weight is missing if the rule has none. -/
structure Point (α : Type) where
  coords : List α
  weight : Option α

namespace Point

variable {α : Type} [Scalar α]

open scoped Scalar

/-- The coordinate in direction `d`, zero past the dimension of the point. -/
def coord (p : Point α) (d : Nat) : α := p.coords[d]?.getD 0

/-- The first coordinate. -/
def xi (p : Point α) : α := p.coord 0

/-- The second coordinate. -/
def eta (p : Point α) : α := p.coord 1

/-- The third coordinate. -/
def zeta (p : Point α) : α := p.coord 2

end Point

/-- A matrix of coordinates with its rows. -/
structure CoordMatrix (α : Type) where
  numRows : Nat
  numColumns : Nat
  rows : List (List α)

namespace Rule

variable {α : Type}

/-- The coordinates of the `i`-th point. -/
def point (r : Rule α) (i : Nat) : Except Failure (List α) :=
  if (i + 1) * r.dim ≤ r.locations.length then .ok ((r.locations.drop (i * r.dim)).take r.dim)
  else .error (.aborted .index)

/-- The points in order, each with its weight. -/
def points (r : Rule α) : List (Point α) :=
  match r.weights with
  | none => (blocks r.dim r.locations).map fun coords => ⟨coords, none⟩
  | some ws => ((blocks r.dim r.locations).zip ws).map fun (coords, w) => ⟨coords, some w⟩

/-- One entry of the matrix of coordinates. -/
def entry (r : Rule α) (flat : Array α) (i d : Nat) : Except Failure α :=
  match flat[i * r.dim + d]? with
  | some x => .ok x
  | none => .error (.aborted .index)

/-- The coordinates as a matrix with a row for each point (`location_matrix`). The product of the
extents that are not zero must be a signed word. -/
def coordMatrix (r : Rule α) : Except Failure (CoordMatrix α) :=
  if (max r.npoints 1) * (max r.dim 1) < Size.extentLimit then
    let flat := r.locations.toArray
    let rows := (List.range r.npoints).mapM fun i =>
      (List.range r.dim).mapM fun d => r.entry flat i d
    rows.map fun rows => ⟨r.npoints, r.dim, rows⟩
  else .error (.aborted .capacity)

/-- The sum over the points of the value of `f` times the weight, from the first point to the
last. -/
@[specialize]
def integrate [Scalar α] (r : Rule α) (f : List α → α) : Except Failure α :=
  match r.weights with
  | none => .error (.rejected (.unsupported "integrate" r.name))
  | some ws =>
    .ok (Scalar.sum (((blocks r.dim r.locations).zip ws).map fun (coords, w) => f coords * w))

end Rule

end Cubature
