import Cubature.Scalar
import Cubature.Size

/-!
# Kinds of rules

Five kinds of rules belong to reference elements: the line `[-1, 1]`, the square and the cube over
it, and the triangle and the tetrahedron whose corners are the origin and the unit points. Rules of
kind `arbitrary` hold whatever points a caller supplies.
-/

namespace Cubature

open scoped Scalar

/-- What a rule integrates over. -/
inductive Kind where
  | arbitrary
  | line
  | quadrilateral
  | triangle
  | hexahedron
  | tetrahedron
  deriving DecidableEq, Repr

namespace Kind

/-- The kinds that registries build, lowest dimension first. -/
def cached : List Kind := [.line, .quadrilateral, .triangle, .hexahedron, .tetrahedron]

/-- The short name of a kind. -/
def name : Kind → String
  | .arbitrary => "arbitrary"
  | .line => "bar"
  | .quadrilateral => "quad"
  | .triangle => "tri"
  | .hexahedron => "hex"
  | .tetrahedron => "tetra"

/-- The dimension of the reference element. -/
def dim? : Kind → Option Nat
  | .arbitrary => none
  | .line => some 1
  | .quadrilateral | .triangle => some 2
  | .hexahedron | .tetrahedron => some 3

/-- The kind of rule on the sides of the reference element (`side_kind`). -/
def sideKind? : Kind → Option Kind
  | .arbitrary | .line => none
  | .quadrilateral | .triangle => some .line
  | .hexahedron => some .quadrilateral
  | .tetrahedron => some .triangle

/-- The number of points of a rule of the given order. -/
def pointCount? (kind : Kind) (order : Nat) : Option Nat :=
  match kind with
  | .arbitrary => none
  | .line => some order
  | .quadrilateral | .triangle => some (order * order)
  | .hexahedron | .tetrahedron => some (order * order * order)

/-- The number of points of a rule of the given order, which must be a word (`num_points`). -/
def numPoints (kind : Kind) (order : Nat) : Except Failure (Option Nat) :=
  match kind.pointCount? order with
  | none => .ok none
  | some n => some <$> Size.word n

/-- The length, area or volume of the reference element (`reference_measure`). -/
def measure? {α : Type} [Scalar α] : Kind → Option α
  | .arbitrary => none
  | .line => some 2
  | .quadrilateral => some 4
  | .triangle => some (1 / 2)
  | .hexahedron => some 8
  | .tetrahedron => some (1 / 6)

end Kind

/-- The order that is chosen for stiffness matrices of elements of a polynomial degree, after the
degree `2 (degree - 1)` of products of derivatives (`required_order_for_stiffness`). -/
def orderForStiffness (degree : Nat) : Nat := max degree 1

/-- The order that integrates mass matrices of elements of a polynomial degree, products of degree
`2 degree` (`required_order_for_mass`). -/
def orderForMass (degree : Nat) : Except Failure Nat := Size.word (degree + 1)

end Cubature
