import Cubature.Proofs.Registry.Convergence
import Cubature.Proofs.Scalar.Exact
import Cubature.Proofs.Session.Transition
import Mathlib.Algebra.Field.Rat
import Mathlib.Algebra.Order.Ring.Rat

/-!
# Raised limits of the root searches

A registry under a larger limit on the steps of a root search builds the very same rules as one
under a smaller limit, as far as no search stalled under the smaller one
(`Session.rules_of_raised`). Then no search stalls under the larger one either.
-/

namespace Cubature

namespace Session

open scoped Scalar.Exact

variable {s s' t : Session} {id id' : RegistryId} {r : Registry} {kind : Kind} {order : Nat}
  {rule : Shared FloatRule} {config config' : Config}

/-- A rule of which nothing is kept is built without warnings exactly if all searches for it
converge. -/
theorem quiet_reported_iff (hr : s.registries[id]? = some r) (hfree : r.find? kind order = none)
    (hline : r.find? .line order = none)
    (hstep : s.step (.rule id kind order) = (.ok (.rule rule), s')) :
    Quiet (s.reported (.rule id kind order)) ↔
      ∀ alpha ∈ kind.exponents, Gauss.Converges r.config.limits order alpha := by
  obtain ⟨r', w, hr', hrun, rfl⟩ := within_ok (rule_map_ok hstep)
  obtain rfl := Option.some.inj (hr.symm.trans hr')
  obtain ⟨events, hlog, hquiet⟩ := Registry.quietIff_rule hfree hline hrun
  have hreported : s.reported (.rule id kind order) = events := by
    rw [reported, hstep]
    show w.journal.log.toList.drop s.journal.log.size = events
    rw [hlog, ← Array.length_toList, List.drop_left]
  rw [hreported, hquiet]

/-- What was built without a warning in a registry without rules is built alike under raised limits,
and again without a warning. -/
theorem exists_rule_of_raised (hr : s.registries[id]? = some { config })
    (hr' : s'.registries[id']? = some { config := config' })
    (hmax : config'.maxOrder = config.maxOrder)
    (hraised : config.limits.RaisedTo config'.limits)
    (hstep : s.step (.rule id kind order) = (.ok (.rule rule), t))
    (hquiet : Quiet (s.reported (.rule id kind order))) :
    ∃ rule' t', s'.step (.rule id' kind order) = (.ok (.rule rule'), t') ∧
      rule'.value = rule.value ∧ Quiet (s'.reported (.rule id' kind order)) := by
  have hconverges := (quiet_reported_iff hr rfl rfl hstep).mp hquiet
  obtain ⟨r₁, w, hr₁, hrun, -⟩ := within_ok (rule_map_ok hstep)
  obtain rfl := Option.some.inj (hr.symm.trans hr₁)
  obtain ⟨hacc, w₁, hbuild, -⟩ := Registry.rule_of_free rfl hrun
  obtain ⟨hne, hpos, hle⟩ := Registry.accept_ok hacc
  have hcontents :=
    Registry.contents_of_build (Registry.determined_empty config) hbuild
  -- The other registry accepts the order as well, and the rule fits its tables.
  obtain ⟨rule', w', hrun'⟩ := Registry.answers_rule hne hpos (hmax ▸ hle)
    (Registry.yields_of_build hbuild).coordCount_lt ⟨{ config := config' }, s'.journal⟩ rfl
  have hstep' := step_rule_answered hr' hrun'
  obtain ⟨-, w₁', hbuild', -⟩ := Registry.rule_of_free rfl hrun'
  have hcontents' :=
    Registry.contents_of_build (Registry.determined_empty config') hbuild'
  refine ⟨rule', _, hstep', ?_, (quiet_reported_iff hr' rfl rfl hstep').mpr fun alpha halpha =>
    (hconverges alpha halpha).raised hraised⟩
  rw [Registry.contents_of_raised hraised hconverges, hcontents] at hcontents'
  exact (Except.ok.inj hcontents').symm

/-- Raising the limit on the steps of a root search changes nothing that was found.

* In every one-dimensional rule, over any numbers and for any starting points, the nodes whose
  search did not stall keep their locations and weights, and their searches do not stall.
* If a registry without rules builds a rule and reports no warning, then a registry without rules
  whose limits differ only in a larger number of steps builds a rule of the same contents and
  reports no warning. -/
theorem rules_of_raised :
    (∀ {α : Type} [Scalar α] (start : Nat → Nat → α) {tolerance : α} {steps steps' : Nat}
      {n : Nat} {alpha : UInt32} {nodes : Gauss.Nodes α}, steps ≤ steps' →
        Gauss.rule start ⟨tolerance, steps⟩ n alpha = .ok nodes →
          ∃ nodes', Gauss.rule start ⟨tolerance, steps'⟩ n alpha = .ok nodes' ∧
            nodes.Refound nodes' alpha n) ∧
    ∀ {config : Config} {steps : Nat} {s s' t : Session} {id id' : RegistryId} {kind : Kind}
      {order : Nat} {rule : Shared FloatRule}, config.maxNewtonIterations ≤ steps →
        s.registries[id]? = some { config } →
        s'.registries[id']? = some { config := { config with maxNewtonIterations := steps } } →
        s.step (.rule id kind order) = (.ok (.rule rule), t) →
        Quiet (s.reported (.rule id kind order)) →
          ∃ rule' t', s'.step (.rule id' kind order) = (.ok (.rule rule'), t') ∧
            rule'.value = rule.value ∧ Quiet (s'.reported (.rule id' kind order)) := by
  constructor
  · intro α _ start tolerance steps steps' n alpha nodes hle hrule
    have hraised : Gauss.Limits.RaisedTo ⟨tolerance, steps⟩ ⟨tolerance, steps'⟩ := ⟨rfl, hle⟩
    exact Gauss.rule_of_raised hraised hrule
  · intro config steps s s' t id id' kind order rule hle hr hr' hstep hquiet
    have hraised :
        config.limits.RaisedTo { config with maxNewtonIterations := steps }.limits := ⟨rfl, hle⟩
    exact exists_rule_of_raised hr hr' rfl hraised hstep hquiet

/-- Over the rationals one step is enough for both nodes of the two-point rule for `1 - x`, so a
hundred steps give the same. In a registry one step is enough for the tetrahedron rule of order one,
which is made from the rules for all three weights. From order two on a line rule starts its
searches at cosines, whose values the logic does not know. -/
theorem rules_of_raised_examples :
    (∃ nodes nodes' : Gauss.Nodes ℚ, Gauss.rule (fun _ _ => 0) ⟨1 / 10 ^ 15, 1⟩ 2 1 = .ok nodes ∧
      Gauss.rule (fun _ _ => 0) ⟨1 / 10 ^ 15, 100⟩ 2 1 = .ok nodes' ∧ nodes.stalled = [] ∧
      nodes.Refound nodes' 1 2) ∧
    ∃ (s : Session) (rule rule' : Shared FloatRule) (t t' : Session),
      s = { registries := [{ config := { maxNewtonIterations := 1 } }, {}] } ∧
      s.step (.rule 0 .tetrahedron 1) = (.ok (.rule rule), t) ∧
      s.step (.rule 1 .tetrahedron 1) = (.ok (.rule rule'), t') ∧
      rule'.value = rule.value ∧ Quiet (s.reported (.rule 1 .tetrahedron 1)) := by
  constructor
  · obtain ⟨nodes, hnodes, hstalled⟩ : ∃ nodes : Gauss.Nodes ℚ,
        Gauss.rule (fun _ _ => 0) ⟨1 / 10 ^ 15, 1⟩ 2 1 = .ok nodes ∧ nodes.stalled = [] :=
      ⟨_, rfl, by decide +kernel⟩
    obtain ⟨nodes', hnodes', hrefound⟩ :=
      rules_of_raised.1 (fun _ _ => 0) (show 1 ≤ 100 by decide) hnodes
    exact ⟨nodes, nodes', hnodes, hnodes', hstalled, hrefound⟩
  · obtain ⟨s, hs⟩ : ∃ s : Session,
        s = { registries := [{ config := { maxNewtonIterations := 1 } }, {}] } := ⟨_, rfl⟩
    obtain ⟨rule, t, hr, hr', hstep⟩ : ∃ rule t,
        s.registries[0]? = some { config := { maxNewtonIterations := 1 } } ∧
        s.registries[1]? = some ({} : Registry) ∧
        s.step (.rule 0 .tetrahedron 1) = (.ok (.rule rule), t) := by
      subst hs
      exact ⟨_, _, rfl, rfl, rfl⟩
    have hquiet : Quiet (s.reported (.rule 0 .tetrahedron 1)) := by
      refine (quiet_reported_iff hr rfl rfl hstep).mpr fun alpha halpha => ?_
      simp only [Kind.exponents, List.mem_cons, List.not_mem_nil, or_false] at halpha
      rcases halpha with rfl | rfl | rfl <;> exact ⟨_, rfl, by decide +kernel⟩
    obtain ⟨rule', t', hstep', hvalue, hquiet'⟩ :=
      rules_of_raised.2 (show 1 ≤ 100 by decide) hr hr' hstep hquiet
    exact ⟨s, rule, rule', t, t', hs, hstep, hstep', hvalue, hquiet'⟩

end Session

end Cubature
