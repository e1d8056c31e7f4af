import Cubature.Proofs.Registry.Convergence

/-!
# Outcomes of requests

What a request for a rule ends with, the contents of the answer or the failure, is decided by the
kind, the order and the limits (`Registry.verdict`), whatever the registry has built before.

* `Registry.Settled`, `Workshop.Leads.settled`: all that is kept is what would be built, and fits
  one table.
* `Work.Gives`: in all such registries the work ends with the same outcome, up to what tells equal
  rules apart.
* `Registry.gives_rule`: a request gives the verdict on its kind and order.
-/

namespace Cubature

namespace Registry

variable {config : Config} {kind : Kind} {order : Nat}

/-- A registry with the given limits that keeps rules of the contents that these call for, each of
which fits one table. -/
structure Settled (config : Config) (r : Registry) : Prop where
  config_eq : r.config = config
  determined : r.Determined
  fitsTable : ∀ {kind order rule}, r.find? kind order = some rule →
    kind.coordCount order < Size.tableLimit

theorem settled_empty (config : Config) : Settled config { config } :=
  ⟨rfl, determined_empty config, fun h => by cases h⟩

end Registry

namespace Workshop

variable {w w' : Workshop} {config : Config}

theorem Move.settled (h : Move w w') (hw : w.registry.Settled config) :
    w'.registry.Settled config where
  config_eq := (Leads.config_eq (.single h)).trans hw.config_eq
  determined := h.determined hw.determined
  fitsTable hf := by
    cases h with
    | report | issue => exact hw.fitsTable hf
    | add _ _ hy =>
      rcases Registry.find?_keep_cases hf with ⟨rfl, rfl, -⟩ | hf
      · exact hy.coordCount_lt
      · exact hw.fitsTable hf

theorem Leads.settled (h : w.Leads w') (hw : w.registry.Settled config) :
    w'.registry.Settled config := by
  induction h with
  | refl => exact hw
  | tail _ hm ih => exact hm.settled ih

end Workshop

/-! ## Work -/

/-- In every settled registry with the limits, the work ends with the outcome, where answers are
seen through `view`. -/
def Work.Gives {β γ : Type} (x : Work β) (config : Config) (view : β → γ)
    (outcome : Except Failure γ) : Prop :=
  ∀ w : Workshop, w.registry.Settled config → (x.run w).1.map view = outcome

namespace Work

variable {β γ δ ε : Type} {config : Config} {view : β → γ}

theorem gives_pure (b : β) : (pure b : Work β).Gives config view (.ok (view b)) := fun _ _ => rfl

theorem gives_ofExcept (answer : Except Failure β) :
    (ofExcept answer).Gives config id answer := fun _ _ => by cases answer <;> rfl

theorem gives_error (cause : Failure) :
    (ofExcept (.error cause) : Work β).Gives config view (.error cause) := fun _ _ => rfl

/-- The outcomes of the parts make the outcome of the whole, if the rest depends on the view
alone. -/
theorem Gives.bind {x : Work β} {f : β → Work δ} {view' : δ → ε} {outcome : Except Failure γ}
    {rest : γ → Except Failure ε} (hmoves : x.Moves) (hx : x.Gives config view outcome)
    (hf : ∀ b, (f b).Gives config view' (rest (view b))) :
    (x >>= f).Gives config view' (outcome >>= rest) := by
  intro w hw
  have hout := hx w hw
  have hw' := (hmoves w).settled hw
  rw [run_bind]
  generalize x.run w = out at hout hw'
  obtain ⟨cause | b, w'⟩ := out <;> subst hout
  · rfl
  · exact hf b w' hw'

theorem Gives.congr {x : Work β} {outcome outcome' : Except Failure γ}
    (h : x.Gives config view outcome) (heq : outcome = outcome') :
    x.Gives config view outcome' := heq ▸ h

end Work

/-! ## Requests -/

namespace Registry

variable {config : Config} {kind : Kind} {order : Nat}

/-- What building the rule of a kind and an order ends with. -/
def buildVerdict (config : Config) (kind : Kind) (order : Nat) : Except Failure FloatRule := do
  let rule ← contents config.limits kind order
  Size.table (kind.coordCount order)
  pure rule

/-- What a request for the rule of a kind and an order ends with. -/
def verdict (config : Config) (kind : Kind) (order : Nat) : Except Failure FloatRule := do
  accept config kind order
  buildVerdict config kind order

theorem gives_nodes (config : Config) (order : Nat) (alpha : UInt32) :
    (nodes order alpha).Gives config id (Gauss.floatRule config.limits order alpha) := by
  intro w hw
  rw [run_nodes, hw.config_eq]
  cases Gauss.floatRule config.limits order alpha <;> rfl

/-- Serving gives what building gives. -/
theorem gives_serve {build : Work FloatRule}
    (hb : build.Gives config id (buildVerdict config kind order)) :
    (serve kind order build).Gives config Shared.value (buildVerdict config kind order) := by
  intro w hw
  rw [run_serve]
  cases hf : w.registry.find? kind order with
  | some rule =>
    have hcontents := hw.determined hf
    rw [hw.config_eq] at hcontents
    rw [buildVerdict, hcontents]
    show _ = Size.table (kind.coordCount order) >>= fun _ => pure rule.value
    rw [Size.table_eq_ok (hw.fitsTable hf)]
    rfl
  | none =>
    have hout := hb w hw
    generalize build.run w = out at hout
    obtain ⟨cause | rule, w'⟩ := out <;> exact hout

/-- A line rule that is generated fits one table. -/
theorem buildVerdict_line (config : Config) (order : Nat) :
    buildVerdict config .line order =
      Gauss.floatRule config.limits order 0 >>= fun ns => pure (Rule.line order ns) := by
  rw [buildVerdict, contents, Rule.generate]
  cases hns : Gauss.floatRule config.limits order 0 with
  | error => rfl
  | ok ns =>
    have hsize : Size.table (Kind.coordCount .line order) = .ok () :=
      Size.table_eq_ok (Yields.coordCount_lt (r := { config }) (.line hns))
    show Size.table (Kind.coordCount .line order) >>= (fun _ => pure (Rule.line order ns)) = _
    rw [hsize]
    rfl

theorem gives_buildLine (config : Config) (order : Nat) :
    (buildLine order).Gives config id (buildVerdict config .line order) := by
  rw [buildVerdict_line]
  exact (gives_nodes config order 0).bind (moves_nodes order 0) fun ns => Work.gives_pure _

theorem gives_line (hacc : accept config .line order = .ok ()) :
    (line order).Gives config Shared.value (buildVerdict config .line order) := by
  intro w hw
  rw [line_eq_rule, run_rule, hw.config_eq, hacc]
  exact gives_serve (gives_buildLine config order) w hw

/-- What fits one table is passed on. -/
theorem gives_table {β : Type} (size : Nat) (b : β) :
    (do Work.ofExcept (Size.table size); pure b : Work β).Gives config id
      (Size.table size >>= fun _ => pure b) :=
  (Work.gives_ofExcept _).bind (Work.moves_ofExcept _) fun _ => Work.gives_pure b

/-- A tensor product gives what its line rule gives, if it fits one table. -/
theorem gives_tensor (kind : Kind) (make : FloatRule → FloatRule)
    (hacc : accept config .line order = .ok ())
    (hmake : contents config.limits kind order =
      Gauss.floatRule config.limits order 0 >>= fun ns => pure (make (Rule.line order ns))) :
    (do
      let line ← line order
      Work.ofExcept (Size.table (kind.coordCount order))
      pure (make line.value) : Work FloatRule).Gives config id
        (buildVerdict config kind order) := by
  have h : (do
      let line ← line order
      Work.ofExcept (Size.table (kind.coordCount order))
      pure (make line.value) : Work FloatRule).Gives config id
        (buildVerdict config .line order >>= fun line =>
          Size.table (kind.coordCount order) >>= fun _ => pure (make line)) :=
    (gives_line hacc).bind (moves_line order) fun line => gives_table _ (make line.value)
  refine h.congr ?_
  rw [buildVerdict_line, buildVerdict, hmake]
  simp only [bind_assoc, pure_bind]

theorem gives_build (kind : Kind) (hacc : accept config .line order = .ok ()) :
    (build kind order).Gives config id (buildVerdict config kind order) := by
  have hsquare : ∀ kind : Kind, kind = .quadrilateral ∨ kind = .triangle →
      kind.coordCount order = 2 * (order * order) := by
    rintro kind (rfl | rfl) <;> exact Nat.mul_comm _ _
  have hcube : ∀ kind : Kind, kind = .hexahedron ∨ kind = .tetrahedron →
      kind.coordCount order = 3 * (order * order * order) := by
    rintro kind (rfl | rfl) <;> exact Nat.mul_comm _ _
  cases kind with
  | arbitrary => exact Work.gives_error _
  | line => exact gives_buildLine config order
  | quadrilateral =>
    have h := gives_tensor .quadrilateral Rule.quadrilateral hacc rfl
    rwa [hsquare _ (.inl rfl)] at h
  | hexahedron =>
    have h := gives_tensor .hexahedron Rule.hexahedron hacc rfl
    rwa [hcube _ (.inl rfl)] at h
  | triangle =>
    -- The verdict in the order of the work: the parts first, then the size of the whole.
    have hverdict : buildVerdict config .triangle order =
        Gauss.floatRule config.limits order 0 >>= fun s =>
          Gauss.floatRule config.limits order 1 >>= fun t =>
            Size.table (2 * (order * order)) >>= fun _ =>
              pure (Rule.triangle order (s.onUnit 0) (t.onUnit 1)) := by
      rw [buildVerdict, hsquare _ (.inr rfl)]
      simp only [contents, Rule.generate, bind_assoc, pure_bind]
    rw [hverdict]
    exact (gives_nodes config order 0).bind (moves_nodes order 0) fun s =>
      (gives_nodes config order 1).bind (moves_nodes order 1) fun t => gives_table _ _
  | tetrahedron =>
    have hverdict : buildVerdict config .tetrahedron order =
        Gauss.floatRule config.limits order 0 >>= fun s =>
          Gauss.floatRule config.limits order 1 >>= fun t =>
            Gauss.floatRule config.limits order 2 >>= fun r =>
              Size.table (3 * (order * order * order)) >>= fun _ =>
                pure (Rule.tetrahedron order (s.onUnit 0) (t.onUnit 1) (r.onUnit 2)) := by
      rw [buildVerdict, hcube _ (.inr rfl)]
      simp only [contents, Rule.generate, bind_assoc, pure_bind]
    rw [hverdict]
    exact (gives_nodes config order 0).bind (moves_nodes order 0) fun s =>
      (gives_nodes config order 1).bind (moves_nodes order 1) fun t =>
        (gives_nodes config order 2).bind (moves_nodes order 2) fun r => gives_table _ _

/-- A request for a rule gives the verdict on its kind and order. -/
theorem gives_rule (config : Config) (kind : Kind) (order : Nat) :
    (rule kind order).Gives config Shared.value (verdict config kind order) := by
  intro w hw
  rw [run_rule, hw.config_eq, verdict]
  cases hacc : accept config kind order with
  | error cause => rfl
  | ok =>
    obtain ⟨-, hpos, hmax⟩ := accept_ok hacc
    exact gives_serve (gives_build kind (accept_of_within (by decide) hpos hmax)) w hw

end Registry

end Cubature
