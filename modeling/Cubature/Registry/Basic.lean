import Cubature.Config.Basic
import Cubature.Journal
import Cubature.Rule.Basic

/-!
# Registries

A registry keeps every rule it has built, one for each kind and order, under one configuration.

* `Registry.find?`: the rule that is kept for a kind and an order.
* `Registry.owns`: whether a rule is the one that is kept for its kind and order.
-/

namespace Cubature

/-- The working rules. -/
abbrev FloatRule := Rule Float

/-- What a rule is kept under. -/
abbrev RuleKey := Kind × Nat

/-- The rules built so far, the latest first. -/
structure Registry where
  config : Config := .standard
  entries : List (RuleKey × Shared FloatRule) := []

namespace Registry

/-- A registry without rules under usable limits (`with_config`). -/
def withConfig (config : Config) : Except Failure Registry :=
  config.validate.map fun _ => { config }

/-- The rule kept for a kind and an order. -/
def find? (r : Registry) (kind : Kind) (order : Nat) : Option (Shared FloatRule) :=
  r.entries.lookup (kind, order)

/-- Keeps a rule. -/
def keep (r : Registry) (kind : Kind) (order : Nat) (rule : Shared FloatRule) : Registry :=
  { r with entries := ((kind, order), rule) :: r.entries }

theorem find?_keep_self (r : Registry) (kind : Kind) (order : Nat) (rule : Shared FloatRule) :
    (r.keep kind order rule).find? kind order = some rule := by
  simp [keep, find?]

theorem find?_keep_of_ne (r : Registry) {kind kind' : Kind} {order order' : Nat}
    (rule : Shared FloatRule) (h : (kind', order') ≠ (kind, order)) :
    (r.keep kind order rule).find? kind' order' = r.find? kind' order' := by
  simp [keep, find?, List.lookup_cons]
  grind

/-- Refuses kinds that are never kept. -/
def requireCached (kind : Kind) : Except Failure Unit :=
  if kind = .arbitrary then .error (.rejected (.unsupported "cached instance" kind.name))
  else .ok ()

/-- The number of orders that are kept of a kind. -/
def count (r : Registry) (kind : Kind) : Nat := r.entries.countP fun e => e.1.1 = kind

/-- The number of orders kept of a kind that can be kept. -/
def cacheSize (r : Registry) (kind : Kind) : Except Failure Nat :=
  (requireCached kind).map fun _ => r.count kind

/-- Whether a rule is kept for a kind that can be kept. -/
def contains (r : Registry) (kind : Kind) (order : Nat) : Except Failure Bool :=
  (requireCached kind).map fun _ => (r.find? kind order).isSome

/-- The rule kept for a kind that can be kept, if there is one; none is built. -/
def get? (r : Registry) (kind : Kind) (order : Nat) : Except Failure (Option (Shared FloatRule)) :=
  (requireCached kind).map fun _ => r.find? kind order

/-- Whether a rule is the very one that is kept for its kind and order. -/
def owns (r : Registry) (rule : Shared FloatRule) : Bool :=
  match r.find? rule.value.kind rule.value.order with
  | some kept => kept.isSame rule
  | none => false

end Registry

end Cubature
