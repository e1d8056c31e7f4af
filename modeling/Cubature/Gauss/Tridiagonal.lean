import Cubature.Scalar

/-!
# Eigenvalues of symmetric tridiagonal matrices

The number of eigenvalues below `x` is read off the signs of the pivots of the matrix shifted by
`x` (Sturm's theorem), and an eigenvalue is bracketed by bisection on that number.

* `sturmCount`: how many eigenvalues are less than `x`.
* `bracket`: the bracket after a number of bisections.
* `eigenvalue`: the middle of the bracket that starts as `[-1, 1]`.
-/

namespace Cubature.Gauss

open scoped Scalar

variable {α : Type} [Scalar α]

/-- One row of a symmetric tridiagonal matrix: its diagonal entry and the square of the entry that
couples it to the row before. The first row's coupling is not used. -/
structure Row (α : Type) where
  diagonal : α
  coupling : α

/-- A pivot that is exactly zero counts as a small negative one, so that the next is finite. -/
@[inline]
def patchPivot (q : α) : α := if Scalar.isZero q then -Scalar.epsilon else q

/-- The pivots that follow the pivot `before`. -/
@[specialize]
def pivotsAfter (x : α) (before : α) : List (Row α) → List α
  | [] => []
  | row :: rows =>
    let q := patchPivot (row.diagonal - x - row.coupling / before)
    q :: pivotsAfter x q rows

/-- The pivots of the matrix with `x` taken off its diagonal. -/
@[specialize]
def pivots (x : α) : List (Row α) → List α
  | [] => []
  | row :: rows =>
    let q := patchPivot (row.diagonal - x)
    q :: pivotsAfter x q rows

/-- The number of eigenvalues less than `x`: one for each negative pivot (`sturm_count`). -/
@[specialize]
def sturmCount (rows : List (Row α)) (x : α) : Nat :=
  (pivots x rows).countP fun q => Scalar.lt q 0

/-- The bracket of the `k`-th smallest eigenvalue, counted from zero, after a number of bisections
of `[lo, hi]`. -/
@[specialize]
def bracket (rows : List (Row α)) (k : Nat) : Nat → α → α → α × α
  | 0, lo, hi => (lo, hi)
  | steps + 1, lo, hi =>
    let mid := 1 / 2 * (lo + hi)
    if k < sturmCount rows mid then bracket rows k steps lo mid else bracket rows k steps mid hi

/-- The `k`-th smallest eigenvalue, counted from zero, of a matrix whose eigenvalues lie in
`[-1, 1]`: the middle of the bracket after 64 bisections (`bisect_eigenvalue`). -/
@[specialize]
def eigenvalue (rows : List (Row α)) (k : Nat) : α :=
  let (lo, hi) := bracket rows k 64 (-1) 1
  1 / 2 * (lo + hi)

end Cubature.Gauss
