import Cubature.Proofs.Registry.Contents
import Cubature.Proofs.Session.Identity

/-!
# Contents over a run

What a rule consists of depends on its kind, its order and the limits of the root searches. It does
not depend on what was requested before, in which registry it is kept, or in which way it was
obtained (`Session.contents_of_runs`).
-/

namespace Cubature.Session

variable {requests requests' : List Request} {id id' : RegistryId} {kind : Kind} {order : Nat}
  {rule rule' : Shared FloatRule} {s s' : Session} {r r' : Registry}

/-- The contents of a rule that is obtained are those that the limits of its registry give for its
kind and order. -/
theorem Obtains.contents_eq (h : (({} : Session).after requests).Obtains id kind order rule s)
    (hr : s.registries[id]? = some r) :
    Registry.contents r.config.limits kind order = .ok rule.value := by
  obtain ⟨more, rfl⟩ := h.eq_after
  have hs := (sound_start.after requests).after more
  have hf := h.holds hs.filed hs.wellKept
  rw [holds_iff hr] at hf
  rw [← after_append] at hr
  exact everywhere_after Registry.determined_empty (fun h => h.determined) _ _ _ hr hf

/-- Contents do not depend on the run. Two rules that are obtained for the same kind and order have
the same contents to the last bit, if the limits of the root searches are the same: by whatever
requests of any two runs, answered or not, before it, from whatever registries, in whatever way. -/
theorem contents_of_runs (h : (({} : Session).after requests).Obtains id kind order rule s)
    (h' : (({} : Session).after requests').Obtains id' kind order rule' s')
    (hr : s.registries[id]? = some r) (hr' : s'.registries[id']? = some r')
    (htolerance : r.config.newtonTolerance = r'.config.newtonTolerance)
    (hiterations : r.config.maxNewtonIterations = r'.config.maxNewtonIterations) :
    rule.value = rule'.value := by
  have hlimits : r.config.limits = r'.config.limits := by
    rw [Config.limits, Config.limits, htolerance, hiterations]
  have hrule := h.contents_eq hr
  rw [hlimits] at hrule
  exact Except.ok.inj (hrule.symm.trans (h'.contents_eq hr'))

/-- A square rule after a cube rule in the global registry, and one made for a shell in a registry
of its own after a refused request. -/
theorem contents_of_square_runs :
    ∃ (rule rule' : Shared FloatRule) (s s' : Session),
      (({} : Session).after [.hexahedron 0 2]).Obtains 0 .quadrilateral 2 rule s ∧
      (({} : Session).after [.line 0 0, .newRegistry none]).Obtains 1 .quadrilateral 2 rule' s' ∧
      rule.value = rule'.value := by
  obtain ⟨rule, rule', s, s', h, h', ⟨r, hr, hconfig⟩, r', hr', hconfig'⟩ :
      ∃ (rule rule' : Shared FloatRule) (s s' : Session),
        (({} : Session).after [.hexahedron 0 2]).Obtains 0 .quadrilateral 2 rule s ∧
        (({} : Session).after [.line 0 0, .newRegistry none]).Obtains 1 .quadrilateral 2 rule' s' ∧
        (∃ r, s.registries[0]? = some r ∧ r.config = .standard) ∧
        ∃ r, s'.registries[1]? = some r ∧ r.config = .standard :=
    ⟨_, _, _, _, @Obtains.request _ (.quadrilateral 0 2) _ _ _ _ _ rfl rfl,
      @Obtains.request _ (.ruleForElement 1 "SHELL4" 2) _ _ _ _ _ rfl rfl,
      ⟨_, rfl, rfl⟩, ⟨_, rfl, rfl⟩⟩
  refine ⟨rule, rule', s, s', h, h', contents_of_runs h h' hr hr' ?_ ?_⟩
  · rw [hconfig, hconfig']
  · rw [hconfig, hconfig']

end Cubature.Session
