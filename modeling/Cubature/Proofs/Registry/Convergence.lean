import Cubature.Proofs.Gauss.Convergence
import Cubature.Proofs.Registry.Contents
import Cubature.Proofs.Registry.Request

/-!
# Warnings while a rule is built

A registry that has neither the rule nor the line rule of its order builds the rule from
one-dimensional rules (`Kind.exponents`). It reports no warning exactly if the searches for all of
these converge (`Registry.quietIff_rule`). Then the rule has the same contents under raised limits
(`Registry.contents_of_raised`).
-/

namespace Cubature

/-- The exponents `alpha` of the one-dimensional rules for `(1 - x) ^ alpha` that a rule of the kind
is made of. -/
def Kind.exponents : Kind → List UInt32
  | .arbitrary => []
  | .line | .quadrilateral | .hexahedron => [0]
  | .triangle => [0, 1]
  | .tetrahedron => [0, 1, 2]

/-- There is a one-dimensional rule, and no search for it stalls. -/
def Gauss.Converges (limits : Limits Float) (n : Nat) (alpha : UInt32) : Prop :=
  ∃ nodes, floatRule limits n alpha = .ok nodes ∧ nodes.stalled = []

theorem Gauss.Converges.floatRule_eq {limits limits' : Limits Float} {n : Nat} {alpha : UInt32}
    (h : Converges limits n alpha) (hraised : limits.RaisedTo limits') :
    floatRule limits' n alpha = floatRule limits n alpha := by
  obtain ⟨nodes, hnodes, hstalled⟩ := h
  rw [hnodes]
  exact rule_eq_of_raised hraised hnodes hstalled

theorem Gauss.Converges.raised {limits limits' : Limits Float} {n : Nat} {alpha : UInt32}
    (h : Converges limits n alpha) (hraised : limits.RaisedTo limits') :
    Converges limits' n alpha := by
  have heq := h.floatRule_eq hraised
  obtain ⟨nodes, hnodes, hstalled⟩ := h
  exact ⟨nodes, heq.trans hnodes, hstalled⟩

/-- A rule depends on the one-dimensional rules that it is made of. -/
theorem Rule.generate_congr {α : Type} [Scalar α]
    {oneDim oneDim' : UInt32 → Except Failure (Gauss.Nodes α)} {kind : Kind}
    (h : ∀ alpha ∈ kind.exponents, oneDim' alpha = oneDim alpha) (order : Nat) :
    generate oneDim' kind order = generate oneDim kind order := by
  cases kind with
  | arbitrary => rfl
  | line | quadrilateral | hexahedron | triangle | tetrahedron =>
    simp only [Kind.exponents, List.forall_mem_cons, List.not_mem_nil, false_imp_iff,
      implies_true, and_true] at h
    simp only [generate, h]

/-- There is no warning among the reports. -/
def Quiet (events : List Event) : Prop := ∀ e ∈ events, e.level ≠ .warn

theorem quiet_append {events events' : List Event} :
    Quiet (events ++ events') ↔ Quiet events ∧ Quiet events' := List.forall_mem_append

theorem quiet_stalledEvents {alpha : UInt32} {count iterations : Nat} {stalled : List Nat} :
    Quiet (stalledEvents alpha count iterations stalled) ↔ stalled = [] := by
  cases stalled with
  | nil => simp [Quiet, stalledEvents]
  | cons node stalled => simp [Quiet, stalledEvents, Event.level]

/-- Since the first workshop reports were added, and there is no warning among them exactly under a
condition. -/
def Workshop.QuietIff (w w' : Workshop) (P : Prop) : Prop :=
  ∃ events, w'.journal.log.toList = w.journal.log.toList ++ events ∧ (Quiet events ↔ P)

namespace Workshop

variable {w w' w'' : Workshop} {P Q : Prop}

theorem QuietIff.trans (h : w.QuietIff w' P) (h' : w'.QuietIff w'' Q) :
    w.QuietIff w'' (P ∧ Q) := by
  obtain ⟨events, hlog, hquiet⟩ := h
  obtain ⟨events', hlog', hquiet'⟩ := h'
  refine ⟨events ++ events', by rw [hlog', hlog, List.append_assoc], ?_⟩
  rw [quiet_append, hquiet, hquiet']

theorem QuietIff.congr (h : w.QuietIff w' P) (hPQ : P ↔ Q) : w.QuietIff w' Q := by
  obtain ⟨events, hlog, hquiet⟩ := h
  exact ⟨events, hlog, hquiet.trans hPQ⟩

/-- That a rule was added is no warning. -/
theorem QuietIff.add (h : w.QuietIff w' P) (kind : Kind) (order : Nat) (rule : FloatRule) :
    w.QuietIff (w'.add kind order rule) P := by
  have hadd : w'.QuietIff (w'.add kind order rule) True :=
    ⟨[.built kind order rule.npoints], Array.toList_push .., by simp [Quiet, Event.level]⟩
  exact (h.trans hadd).congr (iff_of_eq (and_true P))

end Workshop

namespace Registry

variable {w w' : Workshop} {kind : Kind} {order : Nat} {value : FloatRule}
  {rule : Shared FloatRule}

/-- A rule that is not kept is built and added. -/
theorem rule_of_free (hfree : w.registry.find? kind order = none)
    (h : (Registry.rule kind order).run w = (.ok rule, w')) :
    accept w.registry.config kind order = .ok () ∧ ∃ w₁,
      (build kind order).run w = (.ok rule.value, w₁) ∧ w' = w₁.add kind order rule.value := by
  rw [run_rule] at h
  split at h
  · rename_i hacc
    rw [run_serve, hfree] at h
    generalize hbuild : (build kind order).run w = out at h
    obtain ⟨_ | value, w₁⟩ := out <;> cases h
    exact ⟨hacc, w₁, rfl, rfl⟩
  · cases h

theorem quietIff_nodes {alpha : UInt32} {ns : Gauss.Nodes Float}
    (h : (nodes order alpha).run w = (.ok ns, w')) :
    w.QuietIff w' (Gauss.Converges w.registry.config.limits order alpha) := by
  obtain ⟨hns, -⟩ := nodes_ok h
  have hconverges : Gauss.Converges w.registry.config.limits order alpha ↔ ns.stalled = [] := by
    simp [Gauss.Converges, hns]
  rw [run_nodes, hns] at h
  cases h
  refine ⟨stalledEvents alpha order w.registry.config.limits.iterations ns.stalled, ?_,
    quiet_stalledEvents.trans hconverges.symm⟩
  simp [Workshop.reportAll, Journal.reportAll]

theorem quietIff_buildLine (h : (buildLine order).run w = (.ok value, w')) :
    w.QuietIff w' (Gauss.Converges w.registry.config.limits order 0) := by
  obtain ⟨ns, w₁, hns, hpure⟩ := bind_ok h
  cases hpure
  exact quietIff_nodes hns

theorem quietIff_line (hline : w.registry.find? .line order = none)
    (h : (Registry.rule .line order).run w = (.ok rule, w')) :
    w.QuietIff w' (Gauss.Converges w.registry.config.limits order 0) := by
  obtain ⟨-, w₁, hbuild, rfl⟩ := rule_of_free hline h
  exact (quietIff_buildLine hbuild).add ..

/-- Building a rule from scratch gives no warning exactly if all searches converge. -/
theorem quietIff_build (hline : w.registry.find? .line order = none)
    (h : (build kind order).run w = (.ok value, w')) :
    w.QuietIff w' (∀ alpha ∈ kind.exponents,
      Gauss.Converges w.registry.config.limits order alpha) := by
  cases kind with
  | arbitrary => cases h
  | line => exact (quietIff_buildLine h).congr (by simp [Kind.exponents])
  | quadrilateral =>
    obtain ⟨line, hrun, -⟩ := tensor_ok Rule.quadrilateral h
    exact (quietIff_line hline hrun).congr (by simp [Kind.exponents])
  | hexahedron =>
    obtain ⟨line, hrun, -⟩ := tensor_ok Rule.hexahedron h
    exact (quietIff_line hline hrun).congr (by simp [Kind.exponents])
  | triangle =>
    obtain ⟨s, w₁, runS, h₁⟩ := bind_ok h
    obtain ⟨t, w₂, runT, h₂⟩ := bind_ok h₁
    obtain ⟨_, w₃, runSize, h₃⟩ := bind_ok h₂
    obtain ⟨-, rfl⟩ := Work.ofExcept_ok runSize
    cases h₃
    have hs := quietIff_nodes runS
    have ht := quietIff_nodes runT
    -- The searches change no limits, so the later ones run under those of the start.
    rw [(nodes_ok runS).2] at ht
    exact (hs.trans ht).congr (by simp [Kind.exponents])
  | tetrahedron =>
    obtain ⟨s, w₁, runS, h₁⟩ := bind_ok h
    obtain ⟨t, w₂, runT, h₂⟩ := bind_ok h₁
    obtain ⟨u, w₃, runU, h₃⟩ := bind_ok h₂
    obtain ⟨_, w₄, runSize, h₄⟩ := bind_ok h₃
    obtain ⟨-, rfl⟩ := Work.ofExcept_ok runSize
    cases h₄
    have hs := quietIff_nodes runS
    have ht := quietIff_nodes runT
    have hu := quietIff_nodes runU
    rw [(nodes_ok runT).2, (nodes_ok runS).2] at hu
    rw [(nodes_ok runS).2] at ht
    exact ((hs.trans ht).trans hu).congr (by simp [Kind.exponents, and_assoc])

/-- So does a request for a rule of which nothing is kept. -/
theorem quietIff_rule (hfree : w.registry.find? kind order = none)
    (hline : w.registry.find? .line order = none)
    (h : (Registry.rule kind order).run w = (.ok rule, w')) :
    w.QuietIff w' (∀ alpha ∈ kind.exponents,
      Gauss.Converges w.registry.config.limits order alpha) := by
  obtain ⟨-, w₁, hbuild, rfl⟩ := rule_of_free hfree h
  exact (quietIff_build hline hbuild).add ..

/-- If all searches converge, the contents are the same under raised limits. -/
theorem contents_of_raised {limits limits' : Gauss.Limits Float}
    (hraised : limits.RaisedTo limits')
    (h : ∀ alpha ∈ kind.exponents, Gauss.Converges limits order alpha) :
    contents limits' kind order = contents limits kind order :=
  Rule.generate_congr (fun alpha halpha => (h alpha halpha).floatRule_eq hraised) order

/-- What is added fits one table. -/
theorem Yields.coordCount_lt {r : Registry} (h : r.Yields order kind value) :
    kind.coordCount order < Size.tableLimit := by
  rw [Kind.coordCount, Nat.mul_comm]
  cases h with
  | line h => simpa [Kind.pointCount?, Kind.dim?] using (Gauss.length_rule h).1
  | quadrilateral _ hsize | hexahedron _ hsize => exact Size.table_ok hsize
  | triangle _ _ hsize => exact Size.table_ok hsize
  | tetrahedron _ _ _ hsize => exact Size.table_ok hsize

end Registry

end Cubature
