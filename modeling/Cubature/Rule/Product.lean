import Cubature.Gauss.Nodes
import Cubature.Rule.Basic

/-!
# Product rules

Rules on reference elements are products of one-dimensional rules.

* `Rule.line`, `Rule.quadrilateral`, `Rule.hexahedron`: tensor products of a Gauss–Legendre rule,
  the first coordinate slowest.
* `Rule.triangle`, `Rule.tetrahedron`: collapsed products. The square is pressed onto the triangle
  by `(s, t) ↦ (s (1 - t), t)`, whose Jacobian `1 - t` is the weight of the rule in `t`; the cube
  onto the tetrahedron likewise, with the weight `(1 - r) ^ 2` in `r`.
-/

namespace Cubature

open scoped Scalar

variable {α : Type} [Scalar α]

/-- The points and weights of a rule on `[0, 1]`. -/
structure UnitRule (α : Type) where
  locations : List α
  weights : List α

/-- A rule for `(1 - x) ^ alpha` on `[-1, 1]`, moved to `[0, 1]` (`unit_interval`). -/
@[specialize]
def Gauss.Nodes.onUnit (nodes : Gauss.Nodes α) (alpha : Nat) : UnitRule α :=
  let scale : α := Scalar.powerInt (1 / 2) ((alpha : Int) + 1)
  { locations := nodes.locations.map fun x => 1 / 2 * (1 + x)
    weights := nodes.weights.map (· * scale) }

namespace Rule

/-- The weights of a rule, none if it has none. -/
def weightList (r : Rule α) : List α := r.weights.getD []

/-- The rule on `[-1, 1]` with the nodes of a Gauss–Legendre rule. -/
def line (order : Nat) (nodes : Gauss.Nodes α) : Rule α :=
  ⟨.line, order, order, 1, nodes.locations, some nodes.weights⟩

/-- The tensor product of a line rule with itself. -/
@[specialize]
def quadrilateral (line : Rule α) : Rule α :=
  { kind := .quadrilateral
    order := line.order
    npoints := line.npoints * line.npoints
    dim := 2
    locations := line.locations.flatMap fun x => line.locations.flatMap fun y => [x, y]
    weights := some (line.weightList.flatMap fun u => line.weightList.map fun v => u * v) }

/-- The tensor product of three copies of a line rule. -/
@[specialize]
def hexahedron (line : Rule α) : Rule α :=
  { kind := .hexahedron
    order := line.order
    npoints := line.npoints * line.npoints * line.npoints
    dim := 3
    locations := line.locations.flatMap fun x => line.locations.flatMap fun y =>
      line.locations.flatMap fun z => [x, y, z]
    weights := some (line.weightList.flatMap fun u => line.weightList.flatMap fun v =>
      line.weightList.map fun w => u * v * w) }

/-- The collapsed product on the triangle: `s` carries no weight and `t` the weight `1 - t`. -/
@[specialize]
def triangle (order : Nat) (s t : UnitRule α) : Rule α :=
  { kind := .triangle
    order
    npoints := order * order
    dim := 2
    locations := t.locations.flatMap fun y => s.locations.flatMap fun x => [x * (1 - y), y]
    weights := some (t.weights.flatMap fun v => s.weights.map fun u => u * v) }

/-- The collapsed product on the tetrahedron: `r` carries the weight `(1 - r) ^ 2`. -/
@[specialize]
def tetrahedron (order : Nat) (s t r : UnitRule α) : Rule α :=
  { kind := .tetrahedron
    order
    npoints := order * order * order
    dim := 3
    locations := r.locations.flatMap fun z => t.locations.flatMap fun y =>
      s.locations.flatMap fun x => [x * (1 - y) * (1 - z), y * (1 - z), z]
    weights := some (r.weights.flatMap fun w => t.weights.flatMap fun v =>
      s.weights.map fun u => u * v * w) }

end Rule

end Cubature
