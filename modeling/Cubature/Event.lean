import Cubature.Kind

/-!
# What is reported

Registries report what they build and what they serve again, and root searches that did not
converge. Each report has a level and a wording.
-/

namespace Cubature

/-- How much a report matters. -/
inductive Level where
  | trace
  | debug
  | info
  | warn
  deriving DecidableEq

/-- The name of a level. -/
def Level.name : Level → String
  | .trace => "TRACE"
  | .debug => "DEBUG"
  | .info => "INFO"
  | .warn => "WARN"

/-- Something that was done. -/
inductive Event where
  /-- A rule was found where it had been kept. -/
  | served (kind : Kind) (order : Nat)
  /-- A rule was built and is now kept. -/
  | built (kind : Kind) (order npoints : Nat)
  /-- The search for a node of the `count`-point rule for `(1 - x) ^ alpha` ran out of steps. -/
  | stalled (alpha : UInt32) (node count iterations : Nat)
  /-- A number of rules are about to be built. -/
  | warmingUp (rules : Nat)
  /-- The rules on the sides of a topology were built. -/
  | builtSides (topology : String) (sides order : Nat)
  deriving DecidableEq

namespace Event

/-- The level of a report. -/
def level : Event → Level
  | .served .. => .trace
  | .built .. | .builtSides .. => .debug
  | .warmingUp .. => .info
  | .stalled .. => .warn

/-- The name of the one-dimensional rules for `(1 - x) ^ alpha`. -/
def family (alpha : UInt32) : String :=
  if alpha = 0 then "Gauss-Legendre" else "Gauss-Jacobi(alpha=" ++ toString alpha.toNat ++ ")"

/-- The wording of a report. -/
def message : Event → String
  | .served kind order => kind.name ++ " rule order " ++ toString order ++ " served from cache"
  | .built kind order npoints =>
    "Built " ++ kind.name ++ " rule: order " ++ toString order ++ ", " ++ toString npoints
      ++ " points"
  | .stalled alpha node count iterations =>
    family alpha ++ " node " ++ toString node ++ " of " ++ toString count
      ++ " did not converge in " ++ toString iterations ++ " iterations"
  | .warmingUp rules => "Warming up " ++ toString rules ++ " quadrature rules"
  | .builtSides topology sides order =>
    "Built side rules for " ++ topology ++ ": " ++ toString sides ++ " sides at order "
      ++ toString order

end Event

/-- The reports of the searches that stalled while a one-dimensional rule was computed. -/
def stalledEvents (alpha : UInt32) (count iterations : Nat) (stalled : List Nat) : List Event :=
  stalled.map fun node => .stalled alpha node count iterations

end Cubature
