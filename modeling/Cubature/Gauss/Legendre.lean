import Cubature.Gauss.Nodes

/-!
# Gauss–Legendre nodes and weights

The nodes of the `n`-point rule are the roots of the Legendre polynomial `P_n`. Roots come in
pairs `±z`, so only the upper half is searched for, and for odd `n` the middle search starts at
zero.

* `legendre`: `P_n` and its derivative, by the three-term recurrence.
* `legendreWeight`: the weight of a node.
* `legendreNodes`: the rule, for any starting points of the searches. It has as many nodes and
  weights as were asked for (`length_legendreNodes`).
-/

namespace Cubature.Gauss

open scoped Scalar

variable {α : Type} [Scalar α]

/-- The pair `(P_{m+1}(x), P_m(x))`. -/
@[specialize]
def legendrePair (x : α) : Nat → α × α
  | 0 => (x, 1)
  | m + 1 =>
    let (p, before) := legendrePair x m
    let k : α := ((m + 2 : Nat) : α)
    (((2 * k - 1) * x * p - (k - 1) * before) / k, p)

/-- The Legendre polynomial `P_n` and its derivative at `x`, for `n ≥ 1`. -/
@[specialize]
def legendre (n : Nat) (x : α) : Jet α :=
  let (p, before) := legendrePair x (n - 1)
  ⟨p, (n : α) * (x * p - before) / (x * x - 1)⟩

/-- The weight of the node `z` of the `n`-point rule. -/
@[specialize]
def legendreWeight (n : Nat) (z : α) : α :=
  let dp := (legendre n z).slope
  2 / ((1 - z * z) * dp * dp)

/-- The node that a search from `start` ends at, with its weight. -/
@[specialize]
def legendreNode (limits : Limits α) (n : Nat) (start : α) : Node α :=
  let found := limits.refine (legendre n) start
  ⟨found.root, legendreWeight n found.root, found.converged⟩

/-- The nodes in the upper half, the largest first; the last of an odd number is the middle one. -/
@[specialize]
def legendreUpper (start : Nat → α) (limits : Limits α) (n : Nat) : List (Node α) :=
  (List.range ((n + 1) / 2)).map fun i =>
    legendreNode limits n (if 2 * i + 1 = n then 0 else start i)

/-- The `n`-point Gauss–Legendre rule (`gauss_legendre`). The lower half is the upper half with its
sign changed; a middle node keeps the sign it was found with. -/
@[specialize]
def legendreNodes (start : Nat → α) (limits : Limits α) (n : Nat) : Nodes α :=
  let upper := legendreUpper start limits n
  let lower := upper.take (n / 2)
  { locations := lower.map (fun node => -node.location) ++ upper.reverse.map (·.location)
    weights := lower.map (·.weight) ++ upper.reverse.map (·.weight)
    stalled := stalledPositions upper }

theorem length_legendreUpper (start : Nat → α) (limits : Limits α) (n : Nat) :
    (legendreUpper start limits n).length = (n + 1) / 2 := by
  simp [legendreUpper]

theorem length_legendreNodes (start : Nat → α) (limits : Limits α) (n : Nat) :
    (legendreNodes start limits n).locations.length = n ∧
      (legendreNodes start limits n).weights.length = n := by
  simp [legendreNodes, length_legendreUpper]
  omega

end Cubature.Gauss
