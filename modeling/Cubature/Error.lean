import Cubature.Decimal.Layout

/-!
# Why a request fails

A request is either *rejected*, for a cause the caller can read (`RuleError`), or *aborted*,
because a size does not fit the machine (`Abort`). `RuleError.message` holds all wording.
-/

namespace Cubature

/-- What is wrong with a configuration or its file. -/
inductive ConfigError where
  | unreadable
  | unwritable
  | malformed
  | zeroMaxOrder
  | badTolerance (tolerance : Float)
  | zeroIterations
  | other (text : String)
  deriving DecidableEq

/-- The wording of a configuration error. -/
def ConfigError.text : ConfigError → String
  | .unreadable => "Failed to read config file"
  | .unwritable => "Failed to write config file"
  | .malformed => "Failed to parse JSON"
  | .zeroMaxOrder => "max_order must be at least 1"
  | .badTolerance t =>
    "newton_tolerance must be positive and finite, got "
      ++ String.ofList (Decimal.Layout.prose.render t)
  | .zeroIterations => "max_newton_iterations must be at least 1"
  | .other text => text

/-- Why a request is rejected. Rules and operations are named as in messages. -/
inductive RuleError where
  | unsupported (operation rule : String)
  | unknownTopology (name : String)
  | sideOutOfRange (side numSides : Nat)
  | invalidPointCount (n : Nat)
  | invalidOrder (order max : Nat)
  | shapeMismatch (what : String) (expected got : Nat)
  | foreignRule (rule : String) (order : Nat)
  | config (cause : ConfigError)
  deriving DecidableEq

namespace RuleError

/-- The wording of an error. -/
def message : RuleError → String
  | .unsupported operation rule => operation ++ " is not supported for " ++ rule ++ " rules"
  | .unknownTopology name => "unknown topology: " ++ name
  | .sideOutOfRange side numSides =>
    "side index " ++ toString side ++ " out of range (topology has " ++ toString numSides
      ++ " sides)"
  | .invalidPointCount n => "invalid point count: " ++ toString n ++ " (must be >= 1)"
  | .invalidOrder order max =>
    "invalid quadrature order: " ++ toString order ++ " (must be in 1..=" ++ toString max ++ ")"
  | .shapeMismatch what expected got =>
    what ++ " length mismatch: expected " ++ toString expected ++ ", got " ++ toString got
  | .foreignRule rule order =>
    rule ++ " rule of order " ++ toString order ++ " was not built by the global registry"
  | .config cause => "configuration error: " ++ cause.text

/-- The operation is not defined for the kind of rule. -/
def isUnsupported : RuleError → Bool
  | .unsupported .. => true
  | _ => false

/-- No topology has the name. -/
def isUnknownTopology : RuleError → Bool
  | .unknownTopology .. => true
  | _ => false

/-- A side index is past the last side. -/
def isOutOfRange : RuleError → Bool
  | .sideOutOfRange .. => true
  | _ => false

/-- A rule was used with a registry that did not build it. -/
def isForeignRule : RuleError → Bool
  | .foreignRule .. => true
  | _ => false

/-- An argument is outside what the operation accepts. -/
def isPrecondition : RuleError → Bool
  | .invalidPointCount .. | .invalidOrder .. | .shapeMismatch .. => true
  | _ => false

end RuleError

/-- Why a request is given up without an answer. -/
inductive Abort where
  /-- A count does not fit a machine word. -/
  | overflow
  /-- A table would take more memory than can be addressed. -/
  | capacity
  /-- A position is past the end of a table. -/
  | index
  deriving DecidableEq

/-- How a request fails. `stray` is the use of a registry or catalog that was never made. -/
inductive Failure where
  | rejected (cause : RuleError)
  | aborted (cause : Abort)
  | stray
  deriving DecidableEq

end Cubature
