import Cubature.Gauss.Newton

/-!
# Nodes and weights on `[-1, 1]`

What both one-dimensional generators produce: nodes from left to right, one weight for each, and
the positions of the root searches that ran out of steps.
-/

namespace Cubature.Gauss

/-- A one-dimensional rule on `[-1, 1]`. `stalled` lists the searches that did not converge, by
their position among the searches that were made. -/
structure Nodes (α : Type) where
  locations : List α
  weights : List α
  stalled : List Nat

/-- One refined node with its weight. -/
structure Node (α : Type) where
  location : α
  weight : α
  converged : Bool

/-- The positions of the nodes whose search did not converge. -/
def stalledPositions {α : Type} (nodes : List (Node α)) : List Nat :=
  (nodes.zipIdx.filter fun (node, _) => !node.converged).map (·.2)

end Cubature.Gauss
