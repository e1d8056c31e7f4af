import Cubature.Scalar

/-!
# Newton's method with a limit

A root search is told how small a step ends it and how many steps it may take. It always answers:
a search that ran out of steps gives the point it reached and says so.
-/

namespace Cubature.Gauss

open scoped Scalar

variable {α : Type} [Scalar α]

/-- When a root search ends: at a step no larger than `tolerance`, or after `iterations` steps. -/
structure Limits (α : Type) where
  tolerance : α
  iterations : Nat

/-- The value and the slope of a function at a point. -/
structure Jet (α : Type) where
  value : α
  slope : α

/-- Where a root search ended, and whether its last step was small enough. -/
structure Approach (α : Type) where
  root : α
  converged : Bool

/-- Newton's method for the function `f` from the point `z`. The step that is small enough to end
the search is still taken. -/
@[specialize]
def newton (f : α → Jet α) (tolerance : α) : Nat → α → Approach α
  | 0, z => ⟨z, false⟩
  | steps + 1, z =>
    let jet := f z
    let dz := jet.value / jet.slope
    if Scalar.le (Scalar.abs dz) tolerance then ⟨z - dz, true⟩
    else newton f tolerance steps (z - dz)

/-- Newton's method under the given limits. -/
@[inline]
def Limits.refine (limits : Limits α) (f : α → Jet α) (z : α) : Approach α :=
  newton f limits.tolerance limits.iterations z

end Cubature.Gauss
