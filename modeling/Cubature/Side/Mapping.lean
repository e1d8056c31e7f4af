import Cubature.Rule.Views
import Cubature.Topology.Basic

/-!
# Points on sides

A rule on a side lives in the side's own parametric space. Its points are carried into the element
by interpolating the side's vertices: linearly on lines and triangles, bilinearly on
quadrilaterals.

* `shapeFunctions`: the interpolation weights at a point of a side.
* `interpolate`: the point of the element with those weights.
* `parentRule`: a side rule carried into the element.
-/

namespace Cubature

open scoped Scalar

variable {α : Type} [Scalar α]

/-- The weights of the vertices of a side at one of its points, in vertex order
(`side_shape_functions`). -/
@[specialize]
def shapeFunctions (kind : Kind) (p : Point α) : Except Failure (List α) :=
  let s := p.xi
  let t := p.eta
  match kind with
  | .line => .ok [1 / 2 * (1 - s), 1 / 2 * (1 + s)]
  | .triangle => .ok [1 - s - t, s, t]
  | .quadrilateral =>
    .ok [1 / 4 * (1 - s) * (1 - t), 1 / 4 * (1 + s) * (1 - t),
      1 / 4 * (1 + s) * (1 + t), 1 / 4 * (1 - s) * (1 + t)]
  | _ => .error (.rejected (.unsupported "side mapping" kind.name))

/-- The sum of the vertices' coordinates times their weights, in each of `dim` directions. -/
@[specialize]
def interpolate (dim : Nat) (shape : List α) (vertices : List (List α)) : List α :=
  (List.range dim).map fun d =>
    Scalar.sum (List.zipWith (fun n x => n * x[d]?.getD 0) shape vertices)

/-- The coordinates of a vertex, which must have the dimension of the element. -/
def Topology.vertex (t : Topology α) (v : Nat) : Except Failure (List α) :=
  match t.vertexCoords? v with
  | none => .error (.rejected (.shapeMismatch "vertex coordinates" t.dim 0))
  | some coords =>
    if coords.length = t.dim then .ok coords
    else .error (.rejected (.shapeMismatch "vertex coordinates" t.dim coords.length))

/-- A side has no answer to a question. -/
def Topology.missingSide (t : Topology α) (side : Nat) : Failure :=
  .rejected (.sideOutOfRange side t.numSides)

/-- The coordinates of the vertices of a side, in its order. -/
def Topology.sideCorners (t : Topology α) (side : Nat) : Except Failure (List (List α)) :=
  match t.sideVertices? side with
  | none => .error (t.missingSide side)
  | some vertices => vertices.mapM t.vertex

/-- A point of a side carried into the element. The side must have as many vertices as weights. -/
@[specialize]
def mapPoint (dim : Nat) (kind : Kind) (corners : List (List α)) (p : Point α) :
    Except Failure (List α) :=
  match shapeFunctions kind p with
  | .error cause => .error cause
  | .ok shape =>
    if shape.length = corners.length then .ok (interpolate dim shape corners)
    else .error (.rejected (.shapeMismatch "side vertices" shape.length corners.length))

/-- The rule of a side carried into the element (`map_to_parent`): its points mapped, its weights
kept. -/
@[specialize]
def parentRule (t : Topology α) (side : Nat) (rule : Rule α) : Except Failure (Rule α) := do
  let corners ← t.sideCorners side
  Size.table (← Size.word (rule.npoints * t.dim))
  let mapped ← rule.points.mapM (mapPoint t.dim rule.kind corners)
  Rule.arbitrary t.dim rule.npoints mapped.flatten rule.weights

end Cubature
