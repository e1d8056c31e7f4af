import Cubature.Registry.Build
import Cubature.Side.Mapping

/-!
# Side sets

A side set holds a rule for each side of a topology, once in the side's own space and once carried
into the element.

* `SideSet.sideRule`, `SideSet.parentRule`: the rules of one side.
* `buildSideSet`: the set of a topology at the order of a base rule.
-/

namespace Cubature

/-- The rules of one side: the shared rule of its kind, and the same points in the element. -/
structure Side where
  rule : Shared FloatRule
  parent : Shared FloatRule

/-- The rules of every side of a topology, in side order, at the order of the base rule. -/
structure SideSet where
  topology : String
  base : Shared FloatRule
  sides : List Side

namespace SideSet

/-- The number of sides. -/
def numSides (s : SideSet) : Nat := s.sides.length

/-- The rules of a side. -/
def side (s : SideSet) (i : Nat) : Except Failure Side :=
  match s.sides[i]? with
  | some side => .ok side
  | none => .error (.rejected (.sideOutOfRange i s.numSides))

/-- The rule of a side in its own space (`get_side_rule`). -/
def sideRule (s : SideSet) (i : Nat) : Except Failure (Shared FloatRule) := (s.side i).map (·.rule)

/-- The rule of a side carried into the element (`parent_rule`). -/
def parentRule (s : SideSet) (i : Nat) : Except Failure (Shared FloatRule) :=
  (s.side i).map (·.parent)

end SideSet

/-- Builds the rules of one side at the given order. -/
def buildSide (t : Topology Float) (order side : Nat) : Work Side :=
  match t.sideShape? side with
  | none => Work.ofExcept (.error (t.missingSide side))
  | some shape => do
    let kind ← Work.ofExcept (Kind.ofElement shape)
    let rule ← Registry.rule kind order
    let parent ← Work.ofExcept (parentRule t side rule.value)
    let parent ← Work.issue parent
    pure ⟨rule, parent⟩

/-- Builds the rules of `count` sides from the given one on, up to the first that fails. -/
def buildSidesFrom (t : Topology Float) (order : Nat) : Nat → Nat → Work (List Side)
  | _, 0 => pure []
  | side, count + 1 => do
    let first ← buildSide t order side
    let others ← buildSidesFrom t order (side + 1) count
    pure (first :: others)

/-- Builds the side set of a topology. Elements of a dimension below two have no side rules. -/
def buildSideSet (name : String) (t : Topology Float) (base : Shared FloatRule) : Work SideSet :=
  if t.dim < 2 then
    Work.ofExcept (.error (.rejected (.unsupported "side_rule" Kind.line.name)))
  else do
    Work.ofExcept (Size.table t.numSides)
    let sides ← buildSidesFrom t base.value.order 0 t.numSides
    pure ⟨name, base, sides⟩

end Cubature
