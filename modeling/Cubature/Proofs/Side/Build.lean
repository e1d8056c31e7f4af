import Cubature.Proofs.Registry.Invariant
import Cubature.Proofs.Side.Mapping
import Cubature.Side.Catalog

/-!
# What side sets are built from

* `parentRule_ok`: a rule carried into an element is an arbitrary rule of the element's dimension
  with the points and the weights of the side rule.
* `SideSet.Covers`: the set has the rules of every side of a topology, as a registry keeps them.
* `SideSet.Complete`: what such a set answers for each side (`SideSet.Covers.complete`).
* `SideSet.CarriedInto`: the parent rules of such a set are images of its side rules
  (`SideSet.Covers.carriedInto`).
* `moves_buildSideSet`, `buildSideSet_ok`: building a set is a sequence of moves, and a set that is
  built covers its topology.
* `Catalog.run_serve`: what a catalog answers, and what it leaves.
-/

namespace Cubature

/-- A rule carried into an element: arbitrary, of the element's dimension, with as many points as
the side rule and its weights. -/
theorem parentRule_ok {α : Type} [Scalar α] {t : Topology α} {side : Nat} {rule parent : Rule α}
    (h : parentRule t side rule = .ok parent) :
    parent.kind = .arbitrary ∧ parent.dim = t.dim ∧ parent.npoints = rule.npoints ∧
      parent.order = rule.npoints ∧ parent.weights = rule.weights ∧
      parent.locations.length = rule.npoints * t.dim := by
  obtain ⟨_, _, -, -, -, harbitrary⟩ := parentRule_cases h
  obtain ⟨rfl, -, hlen, -⟩ := Rule.arbitrary_ok harbitrary
  exact ⟨rfl, rfl, rfl, rfl, rfl, hlen⟩

/-- The rules of the `i`-th side of a topology at an order: the rule that the registry keeps for
the shape of the side, and that rule carried into the element. -/
structure Side.Matches (side : Side) (r : Registry) (t : Topology Float) (order i : Nat) :
    Prop where
  rule : ∃ shape kind, t.sideShape? i = some shape ∧ Kind.ofElement shape = .ok kind ∧
    r.find? kind order = some side.rule
  parent : parentRule t i side.rule.value = .ok side.parent.value

/-- The set has the rules of every side of a topology of dimension at least two. -/
structure SideSet.Covers (set : SideSet) (r : Registry) (t : Topology Float) : Prop where
  two_le_dim : 2 ≤ t.dim
  numSides_eq : set.numSides = t.numSides
  side : ∀ {i : Nat} {side : Side}, set.sides[i]? = some side →
    side.Matches r t set.base.value.order i

/-- One registry keeps all that another keeps. -/
def Registry.Extends (r' r : Registry) : Prop :=
  ∀ kind order rule, r.find? kind order = some rule → r'.find? kind order = some rule

theorem Side.Matches.of_extends {side : Side} {r r' : Registry} {t : Topology Float} {order i : Nat}
    (hr : r'.Extends r) (h : side.Matches r t order i) : side.Matches r' t order i := by
  obtain ⟨shape, kind, hshape, hkind, hfind⟩ := h.rule
  exact ⟨⟨shape, kind, hshape, hkind, hr _ _ _ hfind⟩, h.parent⟩

theorem SideSet.Covers.of_extends {set : SideSet} {r r' : Registry} {t : Topology Float}
    (hr : r'.Extends r) (h : set.Covers r t) : set.Covers r' t :=
  ⟨h.two_le_dim, h.numSides_eq, fun hs => (h.side hs).of_extends hr⟩

/-- What a side set answers for the sides of a topology of dimension at least two: each side has a
rule, and an arbitrary rule of the element's dimension with as many points and the same weights;
past the last side both are refused. -/
structure SideSet.Complete (set : SideSet) (t : Topology Float) : Prop where
  two_le_dim : 2 ≤ t.dim
  numSides_eq : set.numSides = t.numSides
  inside : ∀ {i : Nat}, i < set.numSides → ∃ rule parent,
    set.sideRule i = .ok rule ∧ set.parentRule i = .ok parent ∧
      parent.value.kind = .arbitrary ∧ parent.value.dim = t.dim ∧
      parent.value.npoints = rule.value.npoints ∧ parent.value.order = rule.value.npoints ∧
      parent.value.weights = rule.value.weights ∧
      parent.value.locations.length = rule.value.npoints * t.dim
  outside : ∀ {i : Nat}, set.numSides ≤ i →
    set.sideRule i = .error (.rejected (.sideOutOfRange i set.numSides)) ∧
      set.parentRule i = .error (.rejected (.sideOutOfRange i set.numSides))

/-- A side before the last one is answered with its two rules. -/
theorem SideSet.exists_side {set : SideSet} {i : Nat} (hi : i < set.numSides) :
    ∃ side, set.sides[i]? = some side ∧ set.sideRule i = .ok side.rule ∧
      set.parentRule i = .ok side.parent := by
  have hs : set.sides[i]? = some set.sides[i] := List.getElem?_eq_getElem hi
  have hside : set.side i = .ok set.sides[i] := by simp [SideSet.side, hs]
  refine ⟨_, hs, ?_, ?_⟩
  · rw [SideSet.sideRule, hside]
    rfl
  · rw [SideSet.parentRule, hside]
    rfl

theorem SideSet.Covers.complete {set : SideSet} {r : Registry} {t : Topology Float}
    (h : set.Covers r t) : set.Complete t where
  two_le_dim := h.two_le_dim
  numSides_eq := h.numSides_eq
  inside {i} hi := by
    obtain ⟨side, hs, hrule, hparent⟩ := SideSet.exists_side hi
    exact ⟨_, _, hrule, hparent, parentRule_ok (h.side hs).parent⟩
  outside {i} hi := by
    have hside : set.side i = .error (.rejected (.sideOutOfRange i set.numSides)) := by
      simp [SideSet.side, List.getElem?_eq_none hi]
    constructor
    · rw [SideSet.sideRule, hside]
      rfl
    · rw [SideSet.parentRule, hside]
      rfl

/-- Every side of the set is carried into the topology: its parent rule is the image of its rule
under the interpolation of the corners of the side, of which there are as many as the kind of the
rule asks for. -/
structure SideSet.CarriedInto (set : SideSet) (t : Topology Float) : Prop where
  numSides_eq : set.numSides = t.numSides
  side : ∀ {i : Nat}, i < set.numSides → ∃ rule parent vertices corners,
    set.sideRule i = .ok rule ∧ set.parentRule i = .ok parent ∧
      t.sideVertices? i = some vertices ∧ vertices.map t.vertexCoords? = corners.map some ∧
      rule.value.kind.cornerCount? = some corners.length ∧
      parent.value.IsImage rule.value (carry t.dim rule.value.kind corners)

theorem SideSet.Covers.carriedInto {set : SideSet} {r : Registry} {t : Topology Float}
    (hr : r.WellKept) (h : set.Covers r t) : set.CarriedInto t where
  numSides_eq := h.numSides_eq
  side {i} hi := by
    obtain ⟨side, hs, hrule, hparent⟩ := SideSet.exists_side hi
    obtain ⟨-, kind, -, -, hfind⟩ := (h.side hs).rule
    have hfits := hr.fits hfind
    obtain ⟨corners, hcorners, hcount, heq⟩ :=
      parentRule_eq_carried hfits (hr.order_le hfind).1 (h.side hs).parent
    obtain ⟨vertices, hvertices, hcoords⟩ := Topology.sideCorners_ok hcorners
    have hdim : 0 < t.dim := Nat.lt_of_lt_of_le (by decide) h.two_le_dim
    refine ⟨_, _, vertices, corners, hrule, hparent, hvertices, hcoords, ?_, ?_⟩
    · rw [hfits.kind_eq, hcount]
    · rw [heq, hfits.kind_eq]
      exact hfits.isImage_carried hdim corners

/-! ## Building -/

theorem moves_buildSide (t : Topology Float) (order side : Nat) :
    (buildSide t order side).Moves := by
  unfold buildSide
  split
  · exact Work.moves_ofExcept _
  · exact (Work.moves_ofExcept _).bind fun _ => (Registry.moves_rule _ _).bind fun _ =>
      (Work.moves_ofExcept _).bind fun _ => (Work.moves_issue _).bind fun _ => Work.moves_pure _

theorem moves_buildSidesFrom (t : Topology Float) (order first count : Nat) :
    (buildSidesFrom t order first count).Moves := by
  induction count generalizing first with
  | zero => exact Work.moves_pure []
  | succ count ih =>
    exact (moves_buildSide t order first).bind fun _ => (ih (first + 1)).bind fun _ =>
      Work.moves_pure _

theorem moves_buildSideSet (name : String) (t : Topology Float) (base : Shared FloatRule) :
    (buildSideSet name t base).Moves := by
  unfold buildSideSet
  split
  · exact Work.moves_ofExcept _
  · exact (Work.moves_ofExcept _).bind fun _ => (moves_buildSidesFrom t _ 0 _).bind fun _ =>
      Work.moves_pure _

theorem buildSide_ok {t : Topology Float} {order i : Nat} {w w' : Workshop} {side : Side}
    (h : (buildSide t order i).run w = (.ok side, w')) : side.Matches w'.registry t order i := by
  unfold buildSide at h
  split at h
  · cases h
  rename_i shape hshape
  obtain ⟨kind, w₁, runKind, h₁⟩ := bind_ok h
  obtain ⟨rule, w₂, runRule, h₂⟩ := bind_ok h₁
  obtain ⟨parent, w₃, runParent, h₃⟩ := bind_ok h₂
  obtain ⟨hkind, rfl⟩ := Work.ofExcept_ok runKind
  obtain ⟨hparent, rfl⟩ := Work.ofExcept_ok runParent
  have hfind := Registry.find?_of_rule runRule
  cases h₃
  exact ⟨⟨shape, kind, hshape, hkind, hfind⟩, hparent⟩

/-- The sides that were built are the asked ones, in order. -/
theorem buildSidesFrom_ok {t : Topology Float} {order first count : Nat} {w w' : Workshop}
    {sides : List Side} (h : (buildSidesFrom t order first count).run w = (.ok sides, w')) :
    sides.length = count ∧
      ∀ {i : Nat} {side : Side}, sides[i]? = some side →
        side.Matches w'.registry t order (first + i) := by
  induction count generalizing first w sides with
  | zero =>
    cases h
    exact ⟨rfl, fun hs => by simp at hs⟩
  | succ count ih =>
    obtain ⟨side₀, w₁, hside, h₁⟩ := bind_ok h
    obtain ⟨others, w₂, hothers, h₂⟩ := bind_ok h₁
    cases h₂
    obtain ⟨hlen, hsides⟩ := ih hothers
    have hw : w'.registry.Extends w₁.registry := by
      have := (moves_buildSidesFrom t order (first + 1) count w₁).grown
      rw [hothers] at this
      exact fun _ _ _ => this.find?_eq
    refine ⟨by rw [List.length_cons, hlen], fun {i side} hs => ?_⟩
    cases i with
    | zero =>
      cases hs
      exact (buildSide_ok hside).of_extends hw
    | succ i =>
      have : others[i]? = some side := by simpa using hs
      have := hsides this
      rwa [Nat.add_assoc, Nat.add_comm 1 i] at this

/-- A set that is built has the given name and base and covers its topology. -/
theorem buildSideSet_ok {name : String} {t : Topology Float} {base : Shared FloatRule}
    {w w' : Workshop} {set : SideSet}
    (h : (buildSideSet name t base).run w = (.ok set, w')) :
    set.topology = name ∧ set.base = base ∧ set.Covers w'.registry t := by
  unfold buildSideSet at h
  split at h
  · cases h
  rename_i hdim
  obtain ⟨_, w₁, runSize, h₁⟩ := bind_ok h
  obtain ⟨sides, w₂, hsides, h₂⟩ := bind_ok h₁
  cases h₂
  obtain ⟨hlen, hmatch⟩ := buildSidesFrom_ok hsides
  refine ⟨rfl, rfl, by omega, hlen, fun {i side} hs => ?_⟩
  have := hmatch hs
  rwa [Nat.zero_add] at this

/-! ## Catalogs -/

namespace Catalog

/-- A kept set is served without any work. Otherwise the new set is issued, reported and kept. -/
theorem run_serve (c : Catalog) (name : String) (t : Topology Float) (base : Shared FloatRule)
    (w : Workshop) :
    (c.serve name t base).run w =
      match c.find? name base with
      | some set => (.ok (set, c), w)
      | none =>
        match (buildSideSet name t base).run w with
        | (.ok set, w') =>
          (.ok (⟨w'.journal.nextId, set⟩, c.keep name base ⟨w'.journal.nextId, set⟩),
            w'.issue.report (.builtSides name set.numSides base.value.order))
        | (.error cause, w') => (.error cause, w') := by
  unfold serve
  cases c.find? name base with
  | some set => rfl
  | none =>
    simp only [run_bind]
    generalize (buildSideSet name t base).run w = out
    obtain ⟨_ | set, w'⟩ := out <;> rfl

end Catalog

end Cubature
