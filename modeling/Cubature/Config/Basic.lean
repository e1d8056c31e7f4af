import Cubature.Gauss.Newton
import Cubature.Error

/-!
# Limits of a registry

A configuration bounds the orders that are built and sets the limits of the root searches.
-/

namespace Cubature

/-- The largest order that is built, and when the search for a node ends. -/
structure Config where
  maxOrder : Nat := 64
  newtonTolerance : Float := 1e-15
  maxNewtonIterations : Nat := 100
  deriving DecidableEq

namespace Config

/-- Orders up to 64, and a hundred steps to a tolerance of `10 ^ -15`. -/
def standard : Config := {}

/-- Whether a tolerance can end a search. -/
def isUsable (tolerance : Float) : Bool := 0.0 < tolerance && tolerance.isFinite

/-- Refuses limits under which nothing can be built. -/
def validate (c : Config) : Except Failure Unit :=
  if c.maxOrder = 0 then .error (.rejected (.config .zeroMaxOrder))
  else if !isUsable c.newtonTolerance then
    .error (.rejected (.config (.badTolerance c.newtonTolerance)))
  else if c.maxNewtonIterations = 0 then .error (.rejected (.config .zeroIterations))
  else .ok ()

/-- The limits of the root searches. -/
def limits (c : Config) : Gauss.Limits Float := ⟨c.newtonTolerance, c.maxNewtonIterations⟩

end Config

end Cubature
