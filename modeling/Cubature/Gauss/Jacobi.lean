import Cubature.Gauss.Nodes
import Cubature.Gauss.Tridiagonal

/-!
# Gauss–Jacobi nodes and weights

The rule for the weight `(1 - x) ^ a` on `[-1, 1]`. Its nodes are the roots of the Jacobi
polynomial `P_n^(a,0)`: they are first located as eigenvalues of the matrix of the three-term
recurrence and then refined.

* `jacobi`: `P_n^(a,0)` and its derivative.
* `jacobiRows`: the tridiagonal matrix of the recurrence.
* `jacobiNodes`: the rule.
-/

namespace Cubature.Gauss

open scoped Scalar

variable {α : Type} [Scalar α]

/-- The pair of `P_{m+1}^(a,0)(x)` and `P_m^(a,0)(x)`. -/
@[specialize]
def jacobiPair (a x : α) : Nat → α × α
  | 0 => (1 / 2 * ((a + 2) * x + a), 1)
  | m + 1 =>
    let (p, before) := jacobiPair a x m
    let k : α := ((m + 2 : Nat) : α)
    let c := 2 * k + a
    let lead := 2 * k * (k + a) * (c - 2)
    (((c - 1) * (c * (c - 2) * x + a * a) * p - 2 * (k + a - 1) * (k - 1) * c * before) / lead, p)

/-- The Jacobi polynomial `P_n^(a,0)` and its derivative at `x`, for `n ≥ 1`. -/
@[specialize]
def jacobi (n : Nat) (a x : α) : Jet α :=
  let (p, before) := jacobiPair a x (n - 1)
  let nf : α := (n : α)
  let c := 2 * nf + a
  ⟨p, (nf * (a - c * x) * p + 2 * (nf + a) * nf * before) / (c * (1 - x * x))⟩

/-- The symmetric tridiagonal matrix of the three-term recurrence of `P^(a,0)` (`jacobi_matrix`). -/
@[specialize]
def jacobiRows (n : Nat) (a : α) : List (Row α) :=
  (List.range n).map fun (k : Nat) =>
    let kf : α := (k : α)
    let c := 2 * kf + a
    { diagonal := -(a * a) / (c * (c + 2))
      coupling :=
        if k = 0 then 0
        else 4 * kf * kf * (kf + a) * (kf + a) / (c * c * (c * c - 1)) }

/-- The weight of the node `z` of the `n`-point rule; `scale` stands for `2 ^ (a + 1)`. -/
@[specialize]
def jacobiWeight (n : Nat) (a scale z : α) : α :=
  let dp := (jacobi n a z).slope
  scale / ((1 - z * z) * dp * dp)

/-- The node that a search from `start` ends at, with its weight. -/
@[specialize]
def jacobiNode (limits : Limits α) (n : Nat) (a scale start : α) : Node α :=
  let found := limits.refine (jacobi n a) start
  ⟨found.root, jacobiWeight n a scale found.root, found.converged⟩

/-- The `n`-point Gauss–Jacobi rule for the weight `(1 - x) ^ a` (`gauss_jacobi`). -/
@[specialize]
def jacobiNodes (limits : Limits α) (n : Nat) (a scale : α) : Nodes α :=
  let rows := jacobiRows n a
  let nodes := (List.range n).map fun k => jacobiNode limits n a scale (eigenvalue rows k)
  { locations := nodes.map (·.location)
    weights := nodes.map (·.weight)
    stalled := stalledPositions nodes }

theorem length_jacobiNodes (limits : Limits α) (n : Nat) (a scale : α) :
    (jacobiNodes limits n a scale).locations.length = n ∧
      (jacobiNodes limits n a scale).weights.length = n := by
  simp [jacobiNodes]

end Cubature.Gauss
