import Cubature.Proofs.Registry.Invariant
import Cubature.Proofs.Rule.Generate

/-!
# Contents of kept rules

The contents of a kept rule are those of `Rule.generate` for its kind, its order and the limits of
the root searches (`Registry.Determined`). Square and cube rules are made from the line rule that
happens to be kept, which is itself of this sort, so moves keep it (`Workshop.Leads.determined`),
and what is built is what is generated (`Registry.contents_of_build`).
-/

namespace Cubature

namespace Rule

variable {α : Type} [Scalar α] {oneDim : UInt32 → Except Failure (Gauss.Nodes α)} {order : Nat}
  {line : Rule α}

theorem generate_line_ok (h : generate oneDim .line order = .ok line) :
    ∃ nodes, oneDim 0 = .ok nodes ∧ line = Rule.line order nodes := by
  obtain ⟨nodes, hnodes, h⟩ := bind_eq_ok h
  exact ⟨nodes, hnodes, (Except.ok.inj h).symm⟩

/-- Square and cube rules are made of the line rule of their order. -/
theorem generate_tensor (h : generate oneDim .line order = .ok line) :
    generate oneDim .quadrilateral order = .ok (quadrilateral line) ∧
      generate oneDim .hexahedron order = .ok (hexahedron line) := by
  obtain ⟨nodes, hnodes, rfl⟩ := generate_line_ok h
  unfold generate
  rw [hnodes]
  exact ⟨rfl, rfl⟩

end Rule

namespace Registry

/-- The contents of the rule of a kind and an order under the given limits. -/
def contents (limits : Gauss.Limits Float) (kind : Kind) (order : Nat) : Except Failure FloatRule :=
  Rule.generate (Gauss.floatRule limits order) kind order

/-- Every kept rule has the contents that its kind, its order and the limits give. -/
def Determined (r : Registry) : Prop :=
  ∀ {kind : Kind} {order : Nat} {rule : Shared FloatRule}, r.find? kind order = some rule →
    contents r.config.limits kind order = .ok rule.value

variable {r : Registry} {kind : Kind} {order : Nat}

theorem determined_empty (config : Config) : ({ config } : Registry).Determined := by
  intro kind order rule h
  cases h

/-- The contents that are found are those of the key, if anything is kept there. -/
theorem Determined.find?_map_value (hr : r.Determined) :
    (r.find? kind order).map Shared.value =
      if (r.find? kind order).isSome then (contents r.config.limits kind order).toOption
      else none := by
  cases hf : r.find? kind order with
  | none => rfl
  | some rule =>
    rw [hr hf]
    rfl

/-- What is added has the contents that its key calls for. -/
theorem Determined.of_yields {rule : FloatRule} (hr : r.Determined)
    (h : r.Yields order kind rule) : contents r.config.limits kind order = .ok rule := by
  cases h with
  | line h =>
    rw [contents, Rule.generate, h]
    rfl
  | quadrilateral h => exact (Rule.generate_tensor (hr h)).1
  | hexahedron h => exact (Rule.generate_tensor (hr h)).2
  | triangle hs ht =>
    rw [contents, Rule.generate, hs, ht]
    rfl
  | tetrahedron hs ht hu =>
    rw [contents, Rule.generate, hs, ht, hu]
    rfl

end Registry

namespace Workshop

variable {w w' : Workshop}

theorem Move.determined (h : Move w w') (hw : w.registry.Determined) :
    w'.registry.Determined := by
  cases h with
  | report | issue => exact hw
  | add _ _ hy =>
    intro kind' order' rule' h
    rcases Registry.find?_keep_cases h with ⟨rfl, rfl, rfl⟩ | h
    · exact hw.of_yields hy
    · exact hw h

/-- Moves keep the contents determined. -/
theorem Leads.determined (h : w.Leads w') (hw : w.registry.Determined) :
    w'.registry.Determined := by
  induction h with
  | refl => exact hw
  | tail _ hm ih => exact hm.determined ih

end Workshop

/-- What is built is what `Rule.generate` makes of the one-dimensional rules. -/
theorem Registry.contents_of_build {kind : Kind} {order : Nat} {rule : FloatRule} {w w' : Workshop}
    (hw : w.registry.Determined) (h : (build kind order).run w = (.ok rule, w')) :
    contents w.registry.config.limits kind order = .ok rule := by
  have hmoves := moves_build kind order w
  rw [h] at hmoves
  have hw' : w'.registry.Determined := hmoves.determined hw
  rw [← hmoves.config_eq]
  exact hw'.of_yields (yields_of_build h)

end Cubature
