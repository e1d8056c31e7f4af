import Cubature.Side.Catalog

/-!
# Sessions

A session is everything that callers share: registries, catalogs, and the journal. The first
registry and the first catalog are there from the start and are called global; the global catalog
draws on the global registry.

* `Session.within`: work on one registry of the session.
* `Session.sideSet`, `Session.sideSetFor`: side sets of a named and of a described topology.
* `Session.sideRule`, `Session.changeOrder`: what a rule of the global registry answers by itself.
-/

namespace Cubature

/-- The place of a catalog in a session. -/
abbrev CatalogId := Nat

/-- The registries, the catalogs and the journal. -/
structure Session where
  registries : List Registry := [{}]
  catalogs : List Catalog := [{ registry := 0 }]
  journal : Journal := {}

/-- An action on a session. What was kept and reported before a failure stays. -/
abbrev Action := ExceptT Failure (StateM Session)

namespace Session

/-- The registry with standard limits that is there from the start. -/
def globalRegistry : RegistryId := 0

/-- The catalog that is there from the start. -/
def globalCatalog : CatalogId := 0

/-- Passes on an answer that needs no session. -/
def ofExcept {β : Type} (answer : Except Failure β) : Action β := ExceptT.mk (pure answer)

/-- The registry at a place. -/
def registry (id : RegistryId) : Action Registry := do
  match (← get).registries[id]? with
  | some r => pure r
  | none => throw .stray

/-- The catalog at a place. -/
def catalog (id : CatalogId) : Action Catalog := do
  match (← get).catalogs[id]? with
  | some c => pure c
  | none => throw .stray

/-- Does a piece of work on the registry at a place. -/
def within {β : Type} (id : RegistryId) (work : Work β) : Action β := do
  let r ← registry id
  let (answer, w) := work.run ⟨r, (← get).journal⟩
  modify fun s => { s with registries := s.registries.set id w.registry, journal := w.journal }
  ofExcept answer

/-- Opens a registry under the given limits, or under the standard ones. -/
def newRegistry (config : Option Config) : Action (RegistryId × Config) := do
  let r ← ofExcept (match config with
    | some config => Registry.withConfig config
    | none => .ok {})
  modifyGet fun s =>
    ((s.registries.length, r.config), { s with registries := s.registries ++ [r] })

/-- Opens a catalog on the registry at a place. -/
def newCatalog (id : RegistryId) : Action CatalogId := do
  let _ ← registry id
  modifyGet fun s =>
    (s.catalogs.length, { s with catalogs := s.catalogs ++ [{ registry := id }] })

/-- A shared rule from supplied coordinates. -/
def arbitrary (dim npoints : Nat) (coords : List Float) (weights : Option (List Float)) :
    Action (Shared FloatRule) := do
  let rule ← ofExcept (Rule.arbitrary dim npoints coords weights)
  modifyGet fun s =>
    let (shared, journal) := s.journal.issue rule
    (shared, { s with journal })

/-- The global rule for stiffness matrices of elements of a polynomial degree (`for_stiffness`). -/
def forStiffness (kind : Kind) (degree : Nat) : Action (Shared FloatRule) :=
  within globalRegistry (Registry.rule kind (orderForStiffness degree))

/-- The global rule for mass matrices of elements of a polynomial degree (`for_mass`). -/
def forMass (kind : Kind) (degree : Nat) : Action (Shared FloatRule) := do
  let order ← ofExcept (orderForMass degree)
  within globalRegistry (Registry.rule kind order)

/-- Refuses a rule that the global registry could keep but does not (`global_owner`). -/
def requireGlobal (rule : Shared FloatRule) : Action Unit := do
  let global ← registry globalRegistry
  if rule.value.kind ≠ .arbitrary ∧ ¬global.owns rule then
    throw (.rejected (.foreignRule rule.value.name rule.value.order))

/-- The rule on the sides of a rule of the global registry (`side_rule`). -/
def sideRule (rule : Shared FloatRule) : Action (Shared FloatRule) := do
  requireGlobal rule
  within globalRegistry (Registry.sideRule rule.value)

/-- The rule of the same kind as a rule of the global registry at another order
(`change_order`). -/
def changeOrder (rule : Shared FloatRule) (order : Nat) : Action (Shared FloatRule) := do
  requireGlobal rule
  within globalRegistry (Registry.changeOrder rule.value order)

/-- The side set that a catalog keeps or builds for a described topology, under a name. -/
def serveSideSet (id : CatalogId) (name : String) (t : Topology Float) (base : Shared FloatRule) :
    Action (Shared SideSet) := do
  let c ← catalog id
  let (set, c) ← within c.registry (c.serve name t base)
  modify fun s => { s with catalogs := s.catalogs.set id c }
  pure set

/-- The side set of the element that a name stands for, kept under that name (`instance`). -/
def sideSet (id : CatalogId) (name : String) (base : Shared FloatRule) :
    Action (Shared SideSet) := do
  let e ← ofExcept (ReferenceElement.ofName name)
  serveSideSet id name e.topology base

/-- The side set of a topology, kept under the topology's own name (`instance_for`). -/
def sideSetFor (id : CatalogId) (t : Topology Float) (base : Shared FloatRule) :
    Action (Shared SideSet) := serveSideSet id t.name t base

end Session

end Cubature
