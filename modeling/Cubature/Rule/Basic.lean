import Cubature.Kind

/-!
# Rules

A rule holds the points and weights of one kind and order. Coordinates lie point after point in one
list, so the `i`-th point has the coordinates from position `i * dim` on.

* `Rule.arbitrary`: a rule from supplied coordinates, if their number fits.
-/

namespace Cubature

/-- Points in parametric space with weights. Weights are missing only from arbitrary rules. -/
structure Rule (α : Type) where
  kind : Kind
  order : Nat
  npoints : Nat
  dim : Nat
  locations : List α
  weights : Option (List α)

namespace Rule

variable {α : Type}

/-- Two rules are equal if all their parts are. A rule with a coordinate or a weight that differs
from itself differs from itself. -/
instance [BEq α] : BEq (Rule α) where
  beq a b :=
    a.kind == b.kind && a.order == b.order && a.npoints == b.npoints && a.dim == b.dim
      && a.locations == b.locations && a.weights == b.weights

/-- The short name of the rule's kind. -/
def name (r : Rule α) : String := r.kind.name

/-- A rule from supplied coordinates, `dim` for each of `npoints` points, and as many weights as
points or none. Its order is the number of its points. -/
def arbitrary (dim npoints : Nat) (coords : List α) (weights : Option (List α)) :
    Except Failure (Rule α) :=
  if dim = 0 then .error (.rejected (.shapeMismatch "parametric dimension" 1 0))
  else
    match Size.word (npoints * dim) with
    | .error e => .error e
    | .ok size =>
      if coords.length ≠ size then
        .error (.rejected (.shapeMismatch "locations" size coords.length))
      else
        match weights with
        | some w =>
          if w.length ≠ npoints then
            .error (.rejected (.shapeMismatch "weights" npoints w.length))
          else .ok ⟨.arbitrary, npoints, npoints, dim, coords, some w⟩
        | none => .ok ⟨.arbitrary, npoints, npoints, dim, coords, none⟩

end Rule

end Cubature
