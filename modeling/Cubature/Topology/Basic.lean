/-!
# Element topologies

What a rule needs to know of an element: its dimension, the shapes and the vertices of its sides,
and where its vertices lie in parametric space. Callers may describe topologies of their own, so
every question may go unanswered.
-/

namespace Cubature

/-- A description of an element. Each question is answered for some indices and not for others. -/
structure Topology (α : Type) where
  name : String
  dim : Nat
  numSides : Nat
  /-- The name of the topology of a side. -/
  sideShape? : Nat → Option String
  /-- The vertices of a side, in its own order. -/
  sideVertices? : Nat → Option (List Nat)
  /-- The parametric coordinates of a vertex. -/
  vertexCoords? : Nat → Option (List α)

end Cubature
