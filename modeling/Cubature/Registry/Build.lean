import Cubature.Gauss.Rule
import Cubature.Registry.Basic
import Cubature.Rule.Product
import Cubature.Topology.Reference

/-!
# Requests to a registry

A request for a rule is answered by the rule that is kept, or by building the rule and keeping it.
Quadrilateral and hexahedron rules are built from the registry's own line rule, which is requested
in the same way. A request that fails leaves every kept rule in place.

* `Registry.rule`: the rule of a kind and an order.
* `Registry.sideRule`, `Registry.changeOrder`: the rule on the sides, and at another order.
* `Registry.warmUp`: builds many rules ahead.
-/

namespace Cubature

/-- A registry at work, with the journal it writes to. -/
structure Workshop where
  registry : Registry
  journal : Journal

/-- A piece of work on a registry. What was kept and reported before a failure stays. -/
abbrev Work := ExceptT Failure (StateM Workshop)

namespace Work

/-- Reports an event. -/
def report (e : Event) : Work Unit := modify fun w => { w with journal := w.journal.report e }

/-- Reports events in order. -/
def reportAll (events : List Event) : Work Unit :=
  modify fun w => { w with journal := w.journal.reportAll events }

/-- Shares a value under a new number. -/
def issue {β : Type} (value : β) : Work (Shared β) :=
  modifyGet fun w =>
    let (shared, journal) := w.journal.issue value
    (shared, { w with journal })

/-- Keeps a rule. -/
def keep (kind : Kind) (order : Nat) (rule : Shared FloatRule) : Work Unit :=
  modify fun w => { w with registry := w.registry.keep kind order rule }

/-- Passes on an answer that needs no registry. -/
def ofExcept {β : Type} (answer : Except Failure β) : Work β := ExceptT.mk (pure answer)

end Work

namespace Registry

/-- Refuses kinds that are never kept and orders outside the limits. -/
def accept (config : Config) (kind : Kind) (order : Nat) : Except Failure Unit :=
  match requireCached kind with
  | .error cause => .error cause
  | .ok () =>
    if order = 0 ∨ config.maxOrder < order then
      .error (.rejected (.invalidOrder order config.maxOrder))
    else .ok ()

/-- The one-dimensional rule under the registry's limits. Searches that stalled are reported. -/
def nodes (order : Nat) (alpha : UInt32) : Work (Gauss.Nodes Float) := do
  let limits := (← get).registry.config.limits
  let nodes ← Work.ofExcept (Gauss.floatRule limits order alpha)
  Work.reportAll (stalledEvents alpha order limits.iterations nodes.stalled)
  pure nodes

/-- The rule that is kept, or a new one, which is then kept (`get_or_build`). -/
def serve (kind : Kind) (order : Nat) (build : Work FloatRule) : Work (Shared FloatRule) := do
  match (← get).registry.find? kind order with
  | some rule =>
    Work.report (.served kind order)
    pure rule
  | none =>
    let rule ← build
    let shared ← Work.issue rule
    Work.report (.built kind order rule.npoints)
    Work.keep kind order shared
    pure shared

/-- Builds the line rule of an order. -/
def buildLine (order : Nat) : Work FloatRule := do
  let nodes ← nodes order 0
  pure (Rule.line order nodes)

/-- The line rule of an order. -/
def line (order : Nat) : Work (Shared FloatRule) := do
  Work.ofExcept (accept (← get).registry.config .line order)
  serve .line order (buildLine order)

/-- Builds the rule of a kind and an order. The coordinates must fit one table. -/
def build (kind : Kind) (order : Nat) : Work FloatRule :=
  match kind with
  | .arbitrary => Work.ofExcept (.error (.rejected (.unsupported "cached instance" kind.name)))
  | .line => buildLine order
  | .quadrilateral => do
    let line ← line order
    Work.ofExcept (Size.table (2 * (order * order)))
    pure (Rule.quadrilateral line.value)
  | .hexahedron => do
    let line ← line order
    Work.ofExcept (Size.table (3 * (order * order * order)))
    pure (Rule.hexahedron line.value)
  | .triangle => do
    let s ← nodes order 0
    let t ← nodes order 1
    Work.ofExcept (Size.table (2 * (order * order)))
    pure (Rule.triangle order (s.onUnit 0) (t.onUnit 1))
  | .tetrahedron => do
    let s ← nodes order 0
    let t ← nodes order 1
    let r ← nodes order 2
    Work.ofExcept (Size.table (3 * (order * order * order)))
    pure (Rule.tetrahedron order (s.onUnit 0) (t.onUnit 1) (r.onUnit 2))

/-- The shared rule of a kind and an order, built on first request (`instance`). -/
def rule (kind : Kind) (order : Nat) : Work (Shared FloatRule) := do
  Work.ofExcept (accept (← get).registry.config kind order)
  serve kind order (build kind order)

/-- The quadrilateral rule of an order. -/
def quadrilateral (order : Nat) : Work (Shared FloatRule) := rule .quadrilateral order

/-- The triangle rule of an order. -/
def triangle (order : Nat) : Work (Shared FloatRule) := rule .triangle order

/-- The hexahedron rule of an order. -/
def hexahedron (order : Nat) : Work (Shared FloatRule) := rule .hexahedron order

/-- The tetrahedron rule of an order. -/
def tetrahedron (order : Nat) : Work (Shared FloatRule) := rule .tetrahedron order

/-- The rule of an order for the element that a name stands for (`rule_for_topology`). -/
def ruleForElement (name : String) (order : Nat) : Work (Shared FloatRule) := do
  let kind ← Work.ofExcept (Kind.ofElement name)
  rule kind order

/-- The rule on the sides of a rule, at the same order (`side_rule`). Lines and arbitrary rules have
none. -/
def sideRule (r : FloatRule) : Work (Shared FloatRule) :=
  match r.kind.sideKind? with
  | none => Work.ofExcept (.error (.rejected (.unsupported "side_rule" r.name)))
  | some kind => rule kind r.order

/-- The rule of the same kind at another order (`change_order`). -/
def changeOrder (r : FloatRule) (order : Nat) : Work (Shared FloatRule) :=
  if r.kind = .arbitrary then
    Work.ofExcept (.error (.rejected (.unsupported "change_order" r.name)))
  else rule r.kind order

/-- Requests rules one after another, up to the first that fails. -/
def rules : List RuleKey → Work Unit
  | [] => pure ()
  | (kind, order) :: rest => do
    let _ ← rule kind order
    rules rest

/-- Every kind with every order. -/
def pairs (kinds : List Kind) (orders : List Nat) : List RuleKey :=
  kinds.flatMap fun kind => orders.map fun order => (kind, order)

/-- Builds the rules of every kind at every order ahead (`warm_up`). -/
def warmUp (kinds : List Kind) (orders : List Nat) : Work Unit := do
  Work.report (.warmingUp (pairs kinds orders).length)
  rules (pairs kinds orders)

end Registry

end Cubature
