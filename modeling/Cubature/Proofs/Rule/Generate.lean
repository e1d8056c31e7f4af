import Cubature.Proofs.Rule.Shape

/-!
# Rules from one-dimensional rules

`Rule.generate` is what the rule of a kind and an order is made of, apart from any registry: the
one-dimensional rules for `(1 - x) ^ alpha` decide the contents. Registries build what is generated
from `Gauss.floatRule` (`Registry.contents_of_build`). What is generated has the shape of its kind
(`Rule.fits_generate`).
-/

namespace Cubature.Rule

variable {α : Type} [Scalar α]

/-- The rule of a kind and an order, where `oneDim alpha` gives the one-dimensional rule for
`(1 - x) ^ alpha`. -/
def generate (oneDim : UInt32 → Except Failure (Gauss.Nodes α)) (kind : Kind) (order : Nat) :
    Except Failure (Rule α) :=
  match kind with
  | .arbitrary => .error (.rejected (.unsupported "cached instance" kind.name))
  | .line => do
    let nodes ← oneDim 0
    pure (line order nodes)
  | .quadrilateral => do
    let nodes ← oneDim 0
    pure (quadrilateral (line order nodes))
  | .hexahedron => do
    let nodes ← oneDim 0
    pure (hexahedron (line order nodes))
  | .triangle => do
    let s ← oneDim 0
    let t ← oneDim 1
    pure (triangle order (s.onUnit 0) (t.onUnit 1))
  | .tetrahedron => do
    let s ← oneDim 0
    let t ← oneDim 1
    let r ← oneDim 2
    pure (tetrahedron order (s.onUnit 0) (t.onUnit 1) (r.onUnit 2))

/-- A generated rule has the shape of its kind, as far as its points can be counted. -/
theorem fits_generate {start : Nat → Nat → α} {limits : Gauss.Limits α} {kind : Kind} {order : Nat}
    {rule : Rule α} (h : generate (Gauss.rule start limits order) kind order = .ok rule)
    (hsize : rule.npoints < Size.tableLimit) : rule.Fits kind order := by
  cases kind with
  | arbitrary => cases h
  | line =>
    obtain ⟨s, hs, h⟩ := bind_eq_ok h
    obtain rfl := Except.ok.inj h
    obtain ⟨-, hx, hw⟩ := Gauss.length_rule hs
    exact fits_line hsize hx hw
  | quadrilateral =>
    obtain ⟨s, hs, h⟩ := bind_eq_ok h
    obtain rfl := Except.ok.inj h
    obtain ⟨horder, hx, hw⟩ := Gauss.length_rule hs
    exact fits_quadrilateral (fits_line horder hx hw) hsize
  | hexahedron =>
    obtain ⟨s, hs, h⟩ := bind_eq_ok h
    obtain rfl := Except.ok.inj h
    obtain ⟨horder, hx, hw⟩ := Gauss.length_rule hs
    exact fits_hexahedron (fits_line horder hx hw) hsize
  | triangle =>
    obtain ⟨s, hs, h⟩ := bind_eq_ok h
    obtain ⟨t, ht, h⟩ := bind_eq_ok h
    obtain rfl := Except.ok.inj h
    obtain ⟨hxs, hws⟩ := Gauss.length_onUnit hs 0
    obtain ⟨hxt, hwt⟩ := Gauss.length_onUnit ht 1
    exact fits_triangle hxs hxt hws hwt hsize
  | tetrahedron =>
    obtain ⟨s, hs, h⟩ := bind_eq_ok h
    obtain ⟨t, ht, h⟩ := bind_eq_ok h
    obtain ⟨r, hr, h⟩ := bind_eq_ok h
    obtain rfl := Except.ok.inj h
    obtain ⟨hxs, hws⟩ := Gauss.length_onUnit hs 0
    obtain ⟨hxt, hwt⟩ := Gauss.length_onUnit ht 1
    obtain ⟨hxr, hwr⟩ := Gauss.length_onUnit hr 2
    exact fits_tetrahedron hxs hxt hxr hws hwt hwr hsize

end Cubature.Rule
