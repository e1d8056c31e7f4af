import Cubature.Proofs.Registry.Request
import Cubature.Proofs.Session.Identity

/-!
# What a request for a rule does

A request for the rule of a kind and an order has one of three outcomes
(`Session.RuleTransition`): it is refused for its kind, it is refused for its order, or it is
answered. A refusal leaves the session as it is. An answer is the rule that is kept afterwards, and
adds no other key than the line rule of a tensor product. This holds in every session that requests
lead to (`Session.ruleTransition_of_run`).
-/

namespace Cubature.Session

variable {s s' : Session} {id : RegistryId} {r : Registry} {kind : Kind} {order : Nat}
  {rule : Shared FloatRule}

/-- The outcomes of a request for a rule of the registry `r` at a place. -/
structure RuleTransition (s : Session) (id : RegistryId) (r : Registry) (kind : Kind)
    (order : Nat) : Prop where
  /-- Arbitrary rules are refused, at whatever order. -/
  unsupported : kind = .arbitrary →
    s.step (.rule id kind order) =
      (.error (.rejected (.unsupported "cached instance" kind.name)), s)
  /-- Other kinds are refused at orders outside the limits. -/
  invalidOrder : kind ≠ .arbitrary → order = 0 ∨ r.config.maxOrder < order →
    s.step (.rule id kind order) =
      (.error (.rejected (.invalidOrder order r.config.maxOrder)), s)
  /-- All else is answered, as far as the coordinates fit one table. -/
  answered : kind ≠ .arbitrary → 1 ≤ order → order ≤ r.config.maxOrder →
    kind.coordCount order < Size.tableLimit →
    ∃ rule s', s.step (.rule id kind order) = (.ok (.rule rule), s') ∧
      s'.Holds id kind order rule ∧
      (∀ id' kind' order' rule', s.Holds id' kind' order' rule' →
        s'.Holds id' kind' order' rule') ∧
      ∀ id' kind' order', s'.Keeps id' kind' order' ↔ s.Keeps id' kind' order' ∨
        id' = id ∧ (kind', order') ∈ Registry.addedKeys kind order

/-- A request that is not accepted leaves the session as it is. -/
theorem step_rule_refused {cause : Failure} (hr : s.registries[id]? = some r)
    (hacc : Registry.accept r.config kind order = .error cause) :
    s.step (.rule id kind order) = (.error cause, s) := by
  obtain ⟨hlt, rfl⟩ := List.getElem?_eq_some_iff.mp hr
  rw [step, Request.perform, run_map, run_within, hr]
  simp [Registry.run_rule, hacc, Except.map]

/-- A request that the registry answers is answered by the session. -/
theorem step_rule_answered {w : Workshop} (hr : s.registries[id]? = some r)
    (hrun : (Registry.rule kind order).run ⟨r, s.journal⟩ = (.ok rule, w)) :
    s.step (.rule id kind order) = (.ok (.rule rule),
      { s with registries := s.registries.set id w.registry, journal := w.journal }) := by
  rw [step, Request.perform, run_map, run_within, hr]
  simp only [hrun]
  rfl

theorem ruleTransition_of_wellKept (hs : s.WellKept) (hr : s.registries[id]? = some r) (kind : Kind)
    (order : Nat) : s.RuleTransition id r kind order where
  unsupported hk := by
    subst hk
    exact step_rule_refused hr (Registry.accept_arbitrary _ _)
  invalidOrder hk horder := step_rule_refused hr (Registry.accept_of_outside hk horder)
  answered hk hpos hmax hsize := by
    obtain ⟨rule, w, hrun⟩ := Registry.answers_rule hk hpos hmax hsize ⟨r, s.journal⟩ rfl
    have hlt := (List.getElem?_eq_some_iff.mp hr).1
    have hstep := step_rule_answered hr hrun
    refine ⟨rule, _, hstep, holds_of_step rfl hstep, fun _ _ _ _ hf => ?_,
      fun id' kind' order' => ?_⟩
    · have heffect := s.step_effect (.rule id kind order)
      rw [hstep] at heffect
      exact heffect.holds hf
    · rw [keeps_worked hlt rfl]
      by_cases hid : id = id'
      · subst hid
        rw [if_pos rfl, Registry.isSome_after_rule (hs id r hr) hrun, keeps_iff hr]
        simp
      · rw [if_neg hid]
        simp [Ne.symm hid]

/-- What a request for a rule does in every session that requests lead to, answered or not: it is
refused for its kind, refused for its order or answered, and in each case it is said what is kept
afterwards. -/
theorem ruleTransition_of_run (requests : List Request)
    (hr : (({} : Session).after requests).registries[id]? = some r) (kind : Kind) (order : Nat) :
    (({} : Session).after requests).RuleTransition id r kind order :=
  ruleTransition_of_wellKept (sound_start.after requests).wellKept hr kind order

/-- A cube rule brings the line rule of its order, beside another line rule, and no square rule. -/
theorem ruleTransition_of_line_run :
    ∃ rule s', (({} : Session).after [.line 0 3]).step (.rule 0 .hexahedron 2) =
        (.ok (.rule rule), s') ∧
      s'.Keeps 0 .line 2 ∧ s'.Keeps 0 .line 3 ∧ ¬s'.Keeps 0 .quadrilateral 2 := by
  obtain ⟨r, hr, hmax⟩ : ∃ r, (({} : Session).after [.line 0 3]).registries[0]? = some r ∧
      r.config.maxOrder = 64 := ⟨_, rfl, rfl⟩
  have hbefore : (({} : Session).after [.line 0 3]).Keeps 0 .line 3 := ⟨_, _, rfl, rfl⟩
  have hfree : ¬(({} : Session).after [.line 0 3]).Keeps 0 .quadrilateral 2 := by
    rintro ⟨_, _, hr, hf⟩
    cases hr
    cases hf
  obtain ⟨rule, s', hstep, -, -, hkeys⟩ :=
    (ruleTransition_of_run [.line 0 3] hr .hexahedron 2).answered (by decide) (by decide)
      (by rw [hmax]; decide) (by decide)
  refine ⟨rule, s', hstep, ?_, ?_, ?_⟩
  · exact (hkeys _ _ _).mpr (.inr ⟨rfl, by decide⟩)
  · exact (hkeys _ _ _).mpr (.inl hbefore)
  · rw [hkeys]
    rintro (h | ⟨-, h⟩)
    · exact hfree h
    · revert h
      decide

end Cubature.Session
