import Cubature.Proofs.Side.Faults

/-!
# Sides of reference elements

The tables of the reference elements pass every check that is made of a described topology: each
side has the shape that belongs to the kind of the element, as many vertices as that shape has
corners, and vertices that the element has (`ReferenceElement.wellFormed`).
-/

namespace Cubature

namespace ReferenceElement

variable {e : ReferenceElement} {i v maxOrder order : Nat} {vertices : List Nat}

/-- The sides of an element of dimension at least two have the shape of an element of their own. Its
kind is that of the side rules, and every side has as many vertices as it has corners. -/
theorem exists_sideElement (hdim : 2 ≤ e.dim) : ∃ side : ReferenceElement,
    e.shape ∈ side.names ∧ e.kind.sideKind? = some side.kind ∧
      ∀ vertices ∈ e.sides, side.kind.cornerCount? = some vertices.length := by
  cases e with
  | bar2 => exact absurd hdim (by decide)
  | quad4 | tri3 => exact ⟨.bar2, by decide, rfl, by decide⟩
  | hex8 => exact ⟨.quad4, by decide, rfl, by decide⟩
  | tetra4 => exact ⟨.tri3, by decide, rfl, by decide⟩

/-- No name stands for two elements. -/
theorem eq_of_mem_names {e' : ReferenceElement} {name : String} (h : name ∈ e.names)
    (h' : name ∈ e'.names) : e = e' :=
  Option.some.inj ((ofName?_eq_some_iff.mpr h).symm.trans (ofName?_eq_some_iff.mpr h'))

theorem sides_pos (e : ReferenceElement) : 0 < e.sides.length := by cases e <;> decide

theorem lt_of_mem_sides (hside : vertices ∈ e.sides) (hv : v ∈ vertices) :
    v < e.corners.length := by
  have hall : ∀ vertices ∈ e.sides, ∀ v ∈ vertices, v < e.corners.length := by cases e <;> decide
  exact hall vertices hside v hv

theorem length_of_mem_corners {coords : List Int} (h : coords ∈ e.corners) :
    coords.length = e.dim := by
  have hall : ∀ coords ∈ e.corners, coords.length = e.dim := by cases e <;> decide
  exact hall coords h

section Topology

variable {α : Type} [Scalar α]

/-- Every vertex has its coordinates. -/
theorem locates (hv : v < e.corners.length) : (e.topology (α := α)).Locates v := by
  refine ⟨(e.corners[v]).map coordinate, ?_, ?_⟩
  · simp [topology, List.getElem?_eq_getElem hv]
  · rw [List.length_map]
    exact length_of_mem_corners (List.getElem_mem hv)

theorem hasShape_iff {side : ReferenceElement} (hi : i < e.sides.length) :
    (e.topology (α := α)).HasShape i side ↔ e.shape ∈ side.names := by
  simp [Topology.HasShape, topology, hi]

/-- All sides are sound at every order within the limits. -/
theorem wellFormed (hdim : 2 ≤ e.dim) (horder : 1 ≤ order ∧ order ≤ maxOrder) :
    (e.topology (α := α)).WellFormed maxOrder order where
  two_le_dim := hdim
  side i hi := by
    obtain ⟨side, hshape, -, hcount⟩ := exists_sideElement hdim
    have hi : i < e.sides.length := hi
    have hmem := List.getElem_mem hi
    exact ⟨side, e.sides[i], (hasShape_iff hi).mpr hshape, horder, List.getElem?_eq_getElem hi,
      hcount _ hmem, fun v hv => locates (lt_of_mem_sides hmem hv)⟩

end Topology

end ReferenceElement

end Cubature
