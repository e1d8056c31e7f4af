import Cubature.Kind
import Cubature.Topology.Basic

/-!
# Reference elements

The five built-in elements, with sides numbered as in Exodus files. Higher-order and shell elements
share corners and sides with the linear element and are known by further names.

* `ReferenceElement.ofName`: the element that a name stands for; no name stands for two
  (`ofName?_eq_some_iff`).
* `ReferenceElement.topology`: the element as a topology.
-/

namespace Cubature

open scoped Scalar

/-- A built-in element. -/
inductive ReferenceElement where
  | bar2
  | quad4
  | tri3
  | hex8
  | tetra4
  deriving DecidableEq, Repr

namespace ReferenceElement

/-- Every built-in element, lowest dimension first. -/
def all : List ReferenceElement := [.bar2, .quad4, .tri3, .hex8, .tetra4]

/-- The canonical name. -/
def name : ReferenceElement → String
  | .bar2 => "BAR2"
  | .quad4 => "QUAD4"
  | .tri3 => "TRI3"
  | .hex8 => "HEX8"
  | .tetra4 => "TETRA4"

/-- Every name that stands for the element. Capitals count. -/
def names : ReferenceElement → List String
  | .bar2 => ["BAR", "BAR2", "BAR3"]
  | .quad4 => ["QUAD", "QUAD4", "QUAD9", "SHELL", "SHELL4", "SHELL9"]
  | .tri3 => ["TRI", "TRI3", "TRI6", "TRISHELL", "TRISHELL3", "TRISHELL6"]
  | .hex8 => ["HEX", "HEX8", "HEX27"]
  | .tetra4 => ["TETRA", "TETRA4", "TETRA10"]

/-- The element that a name stands for. -/
def ofName? (name : String) : Option ReferenceElement := all.find? fun e => e.names.contains name

theorem ofName?_eq_some_iff {name : String} {e : ReferenceElement} :
    ofName? name = some e ↔ name ∈ e.names := by
  constructor
  · intro h
    have := List.find?_some h
    simpa using this
  · intro h
    cases e <;> simp only [names, List.mem_cons, List.not_mem_nil, or_false] at h <;>
      rcases h with rfl | rfl | rfl | rfl | rfl | rfl <;> decide +kernel

/-- The element that a name stands for; other names are refused (`from_name`). -/
def ofName (name : String) : Except Failure ReferenceElement :=
  match ofName? name with
  | some e => .ok e
  | none => .error (.rejected (.unknownTopology name))

/-- The kind of rule that integrates over the element (`rule_kind`). -/
def kind : ReferenceElement → Kind
  | .bar2 => .line
  | .quad4 => .quadrilateral
  | .tri3 => .triangle
  | .hex8 => .hexahedron
  | .tetra4 => .tetrahedron

/-- The dimension of the element. -/
def dim : ReferenceElement → Nat
  | .bar2 => 1
  | .quad4 | .tri3 => 2
  | .hex8 | .tetra4 => 3

/-- The coordinates of the vertices. -/
def corners : ReferenceElement → List (List Int)
  | .bar2 => [[-1], [1]]
  | .quad4 => [[-1, -1], [1, -1], [1, 1], [-1, 1]]
  | .tri3 => [[0, 0], [1, 0], [0, 1]]
  | .hex8 =>
    [[-1, -1, -1], [1, -1, -1], [1, 1, -1], [-1, 1, -1],
     [-1, -1, 1], [1, -1, 1], [1, 1, 1], [-1, 1, 1]]
  | .tetra4 => [[0, 0, 0], [1, 0, 0], [0, 1, 0], [0, 0, 1]]

/-- The vertices of the sides. -/
def sides : ReferenceElement → List (List Nat)
  | .bar2 => [[0], [1]]
  | .quad4 => [[0, 1], [1, 2], [2, 3], [3, 0]]
  | .tri3 => [[0, 1], [1, 2], [2, 0]]
  | .hex8 =>
    [[0, 1, 5, 4], [1, 2, 6, 5], [2, 3, 7, 6], [0, 4, 7, 3], [0, 3, 2, 1], [4, 5, 6, 7]]
  | .tetra4 => [[0, 1, 3], [1, 2, 3], [0, 3, 2], [0, 2, 1]]

/-- The shape that all sides have. -/
def shape : ReferenceElement → String
  | .bar2 => "NODE"
  | .quad4 | .tri3 => "BAR2"
  | .hex8 => "QUAD4"
  | .tetra4 => "TRI3"

/-- The number of vertices. -/
def numVertices (e : ReferenceElement) : Nat := e.corners.length

/-- A whole number as a scalar. -/
def coordinate {α : Type} [Scalar α] (k : Int) : α :=
  if k < 0 then -(k.natAbs : α) else (k.natAbs : α)

/-- The element as a topology. -/
def topology {α : Type} [Scalar α] (e : ReferenceElement) : Topology α :=
  { name := e.name
    dim := e.dim
    numSides := e.sides.length
    sideShape? := fun side => if side < e.sides.length then some e.shape else none
    sideVertices? := fun side => e.sides[side]?
    vertexCoords? := fun vertex => e.corners[vertex]?.map (·.map coordinate) }

/-- The coordinates of a vertex (`vertex_coords`). The position after its last coordinate must be a
word. -/
def vertexCoords {α : Type} [Scalar α] (e : ReferenceElement) (vertex : Nat) :
    Except Failure (Option (List α)) :=
  match Size.word ((vertex + 1) * e.dim) with
  | .error cause => .error cause
  | .ok _ => .ok (e.topology.vertexCoords? vertex)

end ReferenceElement

/-- The kind of rule that integrates over the element with the given name
(`rule_kind_for_topology`). -/
def Kind.ofElement (name : String) : Except Failure Kind :=
  match ReferenceElement.ofName name with
  | .error cause => .error cause
  | .ok e => .ok e.kind

end Cubature
