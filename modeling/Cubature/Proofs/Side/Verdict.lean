import Cubature.Proofs.Registry.Verdict
import Cubature.Proofs.Side.Build

/-!
# Outcomes of building side sets

What building a side set ends with, the contents of all its rules or the failure, is decided by the
topology, the order of the base rule and the limits of the registry (`setVerdict`,
`gives_buildSideSet`). Neither the base rule itself nor the rules that are kept already matter.
-/

namespace Cubature

/-- The contents of the rules of a side. -/
def Side.contents (side : Side) : FloatRule × FloatRule := (side.rule.value, side.parent.value)

/-- The contents of the rules of all sides. -/
def SideSet.contents (set : SideSet) : List (FloatRule × FloatRule) := set.sides.map Side.contents

/-- What building the rules of a side ends with. -/
def sideVerdict (config : Config) (t : Topology Float) (order side : Nat) :
    Except Failure (FloatRule × FloatRule) :=
  match t.sideShape? side with
  | none => .error (t.missingSide side)
  | some shape => do
    let kind ← Kind.ofElement shape
    let rule ← Registry.verdict config kind order
    let parent ← parentRule t side rule
    pure (rule, parent)

/-- What building the rules of `count` sides ends with. -/
def sidesVerdict (config : Config) (t : Topology Float) (order : Nat) :
    Nat → Nat → Except Failure (List (FloatRule × FloatRule))
  | _, 0 => pure []
  | side, count + 1 => do
    let first ← sideVerdict config t order side
    let others ← sidesVerdict config t order (side + 1) count
    pure (first :: others)

/-- What building a side set ends with, where `order` is the order of the base rule. -/
def setVerdict (config : Config) (t : Topology Float) (order : Nat) :
    Except Failure (List (FloatRule × FloatRule)) :=
  if t.dim < 2 then .error (.rejected (.unsupported "side_rule" Kind.line.name))
  else do
    Size.table t.numSides
    sidesVerdict config t order 0 t.numSides

variable {config : Config}

theorem gives_buildSide (config : Config) (t : Topology Float) (order side : Nat) :
    (buildSide t order side).Gives config Side.contents (sideVerdict config t order side) := by
  unfold buildSide sideVerdict
  cases t.sideShape? side with
  | none => exact Work.gives_error _
  | some shape =>
    refine (Work.gives_ofExcept _).bind (Work.moves_ofExcept _) fun kind => ?_
    refine (Registry.gives_rule config kind order).bind (Registry.moves_rule kind order)
      fun rule => ?_
    refine (Work.gives_ofExcept _).bind (Work.moves_ofExcept _) fun parent => ?_
    -- The number that is issued to the parent rule does not show in the contents.
    exact fun _ _ => rfl

theorem gives_buildSidesFrom (config : Config) (t : Topology Float) (order first count : Nat) :
    (buildSidesFrom t order first count).Gives config (List.map Side.contents)
      (sidesVerdict config t order first count) := by
  induction count generalizing first with
  | zero => exact Work.gives_pure []
  | succ count ih =>
    exact (gives_buildSide config t order first).bind (moves_buildSide t order first) fun side =>
      (ih (first + 1)).bind (moves_buildSidesFrom t order (first + 1) count) fun sides =>
        Work.gives_pure (side :: sides)

theorem gives_buildSideSet (config : Config) (name : String) (t : Topology Float)
    (base : Shared FloatRule) :
    (buildSideSet name t base).Gives config SideSet.contents
      (setVerdict config t base.value.order) := by
  unfold buildSideSet setVerdict
  split
  · exact Work.gives_error _
  · exact (Work.gives_ofExcept _).bind (Work.moves_ofExcept _) fun _ =>
      ((gives_buildSidesFrom config t base.value.order 0 t.numSides).bind
        (moves_buildSidesFrom t base.value.order 0 t.numSides) fun sides =>
          Work.gives_pure (SideSet.mk name base sides)).congr (bind_pure _)

end Cubature
