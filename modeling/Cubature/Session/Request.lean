import Cubature.Session.Basic

/-!
# Requests

Everything that can change a session, as data: a request is performed and gives an answer or fails,
and in both cases leaves a session for the next one. The version of what performs them is `version`.
-/

namespace Cubature

/-- The version of the library. -/
def version : String := "0.1.0"

/-- Something that is asked of a session. -/
inductive Request where
  /-- A new registry. -/
  | newRegistry (config : Option Config)
  /-- The rule of a kind and an order. -/
  | rule (registry : RegistryId) (kind : Kind) (order : Nat)
  /-- The line rule of an order. -/
  | line (registry : RegistryId) (order : Nat)
  /-- The quadrilateral rule of an order. -/
  | quadrilateral (registry : RegistryId) (order : Nat)
  /-- The triangle rule of an order. -/
  | triangle (registry : RegistryId) (order : Nat)
  /-- The hexahedron rule of an order. -/
  | hexahedron (registry : RegistryId) (order : Nat)
  /-- The tetrahedron rule of an order. -/
  | tetrahedron (registry : RegistryId) (order : Nat)
  /-- The rule of an order for a named element. -/
  | ruleForElement (registry : RegistryId) (name : String) (order : Nat)
  /-- The global rule for stiffness matrices. -/
  | forStiffness (kind : Kind) (degree : Nat)
  /-- The global rule for mass matrices. -/
  | forMass (kind : Kind) (degree : Nat)
  /-- A rule from supplied coordinates. -/
  | arbitrary (dim npoints : Nat) (coords : List Float) (weights : Option (List Float))
  /-- The rule on the sides of a rule, from a registry or by the rule itself. -/
  | sideRule (registry : Option RegistryId) (rule : Shared FloatRule)
  /-- The rule of the same kind at another order, from a registry or by the rule itself. -/
  | changeOrder (registry : Option RegistryId) (rule : Shared FloatRule) (order : Nat)
  /-- The rules of every kind at every order ahead. -/
  | warmUp (registry : RegistryId) (kinds : List Kind) (orders : List Nat)
  /-- A new catalog. -/
  | newCatalog (registry : RegistryId)
  /-- The side set of a named element. -/
  | sideSet (catalog : CatalogId) (name : String) (base : Shared FloatRule)
  /-- The side set of a described topology. -/
  | sideSetFor (catalog : CatalogId) (topology : Topology Float) (base : Shared FloatRule)

/-- What a session answers. -/
inductive Answer where
  | registry (id : RegistryId) (config : Config)
  | catalog (id : CatalogId)
  | rule (rule : Shared FloatRule)
  | sideSet (set : Shared SideSet)
  | done

/-- Performs a request. -/
def Request.perform : Request → Action Answer
  | .newRegistry config => do
    let (id, config) ← Session.newRegistry config
    pure (.registry id config)
  | .rule registry kind order => .rule <$> Session.within registry (Registry.rule kind order)
  | .line registry order => .rule <$> Session.within registry (Registry.line order)
  | .quadrilateral registry order =>
    .rule <$> Session.within registry (Registry.quadrilateral order)
  | .triangle registry order => .rule <$> Session.within registry (Registry.triangle order)
  | .hexahedron registry order => .rule <$> Session.within registry (Registry.hexahedron order)
  | .tetrahedron registry order => .rule <$> Session.within registry (Registry.tetrahedron order)
  | .ruleForElement registry name order =>
    .rule <$> Session.within registry (Registry.ruleForElement name order)
  | .forStiffness kind degree => .rule <$> Session.forStiffness kind degree
  | .forMass kind degree => .rule <$> Session.forMass kind degree
  | .arbitrary dim npoints coords weights =>
    .rule <$> Session.arbitrary dim npoints coords weights
  | .sideRule (some registry) r => .rule <$> Session.within registry (Registry.sideRule r.value)
  | .sideRule none r => .rule <$> Session.sideRule r
  | .changeOrder (some registry) r order =>
    .rule <$> Session.within registry (Registry.changeOrder r.value order)
  | .changeOrder none r order => .rule <$> Session.changeOrder r order
  | .warmUp registry kinds orders => do
    Session.within registry (Registry.warmUp kinds orders)
    pure .done
  | .newCatalog registry => .catalog <$> Session.newCatalog registry
  | .sideSet catalog name base => .sideSet <$> Session.sideSet catalog name base
  | .sideSetFor catalog topology base => .sideSet <$> Session.sideSetFor catalog topology base

namespace Session

/-- The outcome of a request and the session after it. -/
def step (s : Session) (request : Request) : Except Failure Answer × Session :=
  request.perform.run s

/-- The session after a number of requests. -/
def after (s : Session) (requests : List Request) : Session :=
  requests.foldl (fun s request => (s.step request).2) s

end Session

end Cubature
