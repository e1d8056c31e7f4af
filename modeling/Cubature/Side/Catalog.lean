import Cubature.Side.Set

/-!
# Catalogs of side sets

A catalog keeps every side set it has built, one for each name and base rule. Base rules count as
the same only if they are one and the same shared rule.
-/

namespace Cubature

/-- The place of a registry in a session. -/
abbrev RegistryId := Nat

/-- What a side set is kept under: its name and the number of its base rule. -/
abbrev SetKey := String × Nat

/-- The side sets built so far, the latest first, and the registry their rules come from. -/
structure Catalog where
  registry : RegistryId
  sets : List (SetKey × Shared SideSet) := []

namespace Catalog

/-- The side set kept for a name and a base rule. -/
def find? (c : Catalog) (name : String) (base : Shared FloatRule) : Option (Shared SideSet) :=
  c.sets.lookup (name, base.id)

/-- Keeps a side set. -/
def keep (c : Catalog) (name : String) (base : Shared FloatRule) (set : Shared SideSet) : Catalog :=
  { c with sets := ((name, base.id), set) :: c.sets }

/-- The number of side sets kept. -/
def size (c : Catalog) : Nat := c.sets.length

/-- The side set that is kept, or a new one, with the catalog that keeps it (`get_or_build`). -/
def serve (c : Catalog) (name : String) (t : Topology Float) (base : Shared FloatRule) :
    Work (Shared SideSet × Catalog) :=
  match c.find? name base with
  | some set => pure (set, c)
  | none => do
    let set ← buildSideSet name t base
    let shared ← Work.issue set
    Work.report (.builtSides name set.numSides base.value.order)
    pure (shared, c.keep name base shared)

end Catalog

end Cubature
