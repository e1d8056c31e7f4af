import Cubature.Registry.Build
import Mathlib.Logic.Relation

/-!
# What work does to a workshop

Work on a registry, whether it answers or fails, is a sequence of moves (`Workshop.Move`): events
are reported, a number is issued, or a rule is added under a key that was free. An added rule is
the one that its kind and order call for (`Registry.Yields`), made from the registry's own line
rule where it is a tensor product.

* `run_bind`, `Registry.run_serve`, `Registry.run_rule`: what a piece of work answers and the
  workshop it leaves.
* `Registry.moves_rule`, `Registry.moves_sideRule`, `Registry.moves_changeOrder`,
  `Registry.moves_ruleForElement`, `Registry.moves_warmUp`: every request is a sequence of moves.
* `Registry.find?_of_rule`: the rule that is answered is the one that is kept.
-/

namespace Cubature

/-- The kind and the order of the rule that an event reports as built. -/
def Event.builtKey? : Event → Option RuleKey
  | .built kind order _ => some (kind, order)
  | _ => none

namespace Workshop

/-- The workshop after a report. -/
def report (w : Workshop) (e : Event) : Workshop := { w with journal := w.journal.report e }

/-- The workshop after reports in order. -/
def reportAll (w : Workshop) (events : List Event) : Workshop :=
  { w with journal := w.journal.reportAll events }

/-- The workshop after a number was issued. -/
def issue (w : Workshop) : Workshop :=
  { w with journal := { w.journal with nextId := w.journal.nextId + 1 } }

/-- The workshop after a new rule was shared, reported and kept. -/
def add (w : Workshop) (kind : Kind) (order : Nat) (rule : FloatRule) : Workshop :=
  { registry := w.registry.keep kind order ⟨w.journal.nextId, rule⟩
    journal := (w.issue.report (.built kind order rule.npoints)).journal }

theorem report_eq_reportAll (w : Workshop) (e : Event) : w.report e = w.reportAll [e] := by
  simp [report, reportAll, Journal.report, Journal.reportAll]

end Workshop

namespace Registry

/-- The contents of a rule that the registry can add for a kind and an order. A tensor product is
made from the line rule that the registry keeps. -/
inductive Yields (r : Registry) (order : Nat) : Kind → FloatRule → Prop where
  | line {nodes : Gauss.Nodes Float} (h : Gauss.floatRule r.config.limits order 0 = .ok nodes) :
    Yields r order .line (Rule.line order nodes)
  | quadrilateral {line : Shared FloatRule} (h : r.find? .line order = some line)
    (hsize : Size.table (2 * (order * order)) = .ok ()) :
    Yields r order .quadrilateral (Rule.quadrilateral line.value)
  | hexahedron {line : Shared FloatRule} (h : r.find? .line order = some line)
    (hsize : Size.table (3 * (order * order * order)) = .ok ()) :
    Yields r order .hexahedron (Rule.hexahedron line.value)
  | triangle {s t : Gauss.Nodes Float} (hs : Gauss.floatRule r.config.limits order 0 = .ok s)
    (ht : Gauss.floatRule r.config.limits order 1 = .ok t)
    (hsize : Size.table (2 * (order * order)) = .ok ()) :
    Yields r order .triangle (Rule.triangle order (s.onUnit 0) (t.onUnit 1))
  | tetrahedron {s t u : Gauss.Nodes Float} (hs : Gauss.floatRule r.config.limits order 0 = .ok s)
    (ht : Gauss.floatRule r.config.limits order 1 = .ok t)
    (hu : Gauss.floatRule r.config.limits order 2 = .ok u)
    (hsize : Size.table (3 * (order * order * order)) = .ok ()) :
    Yields r order .tetrahedron
      (Rule.tetrahedron order (s.onUnit 0) (t.onUnit 1) (u.onUnit 2))

/-- An accepted order lies within the limits, and the kind is one that is kept. -/
theorem accept_ok {config : Config} {kind : Kind} {order : Nat}
    (h : accept config kind order = .ok ()) :
    kind ≠ .arbitrary ∧ 1 ≤ order ∧ order ≤ config.maxOrder := by
  unfold accept requireCached at h
  split at h
  · cases h
  rename_i hk
  split at h
  · cases h
  rename_i ho
  split at hk
  · cases hk
  rename_i hne
  exact ⟨hne, by omega, by omega⟩

end Registry

namespace Workshop

/-- One thing that work does: it reports events other than the building of a rule, it issues a
number, or it adds a rule under a free key. -/
inductive Move : Workshop → Workshop → Prop where
  | report (w : Workshop) {events : List Event} (h : ∀ e ∈ events, e.builtKey? = none) :
    Move w (w.reportAll events)
  | issue (w : Workshop) : Move w w.issue
  | add (w : Workshop) {kind : Kind} {order : Nat} {rule : FloatRule}
    (hacc : Registry.accept w.registry.config kind order = .ok ())
    (hfree : w.registry.find? kind order = none) (hy : w.registry.Yields order kind rule) :
    Move w (w.add kind order rule)

/-- A sequence of moves. -/
abbrev Leads : Workshop → Workshop → Prop := Relation.ReflTransGen Move

theorem leads_report (w : Workshop) {e : Event} (h : e.builtKey? = none) :
    w.Leads (w.report e) := by
  rw [report_eq_reportAll]
  exact .single (.report w (by simpa using h))

end Workshop

/-! ## Runs -/

section Runs

variable {σ β γ : Type}

/-- An action and the next: the first failure ends both. -/
theorem run_bind (x : ExceptT Failure (StateM σ) β) (f : β → ExceptT Failure (StateM σ) γ) (s : σ) :
    (x >>= f).run s = match x.run s with
      | (.ok b, s') => (f b).run s'
      | (.error e, s') => (.error e, s') := by
  show (ExceptT.bind x f).run s = _
  simp only [ExceptT.run, ExceptT.bind, ExceptT.mk, bind, StateT.bind]
  generalize x s = out
  obtain ⟨_ | _, s'⟩ := out <;> rfl

/-- A sequence that answers: both parts answer. -/
theorem bind_ok {x : ExceptT Failure (StateM σ) β} {f : β → ExceptT Failure (StateM σ) γ}
    {s s'' : σ} {c : γ} (h : (x >>= f).run s = (.ok c, s'')) :
    ∃ b s', x.run s = (.ok b, s') ∧ (f b).run s' = (.ok c, s'') := by
  rw [run_bind] at h
  generalize x.run s = out at h
  obtain ⟨e | b, s'⟩ := out
  · cases h
  · exact ⟨b, s', rfl, h⟩

/-- An answer that is passed on changed. -/
theorem run_map (f : β → γ) (x : ExceptT Failure (StateM σ) β) (s : σ) :
    (f <$> x).run s = ((x.run s).1.map f, (x.run s).2) := by
  show (ExceptT.map f x).run s = _
  simp only [ExceptT.run, ExceptT.map, ExceptT.mk, bind, StateT.bind]
  generalize x s = out
  obtain ⟨_ | _, s'⟩ := out <;> rfl

theorem map_ok {f : β → γ} {x : ExceptT Failure (StateM σ) β} {s s' : σ} {c : γ}
    (h : (f <$> x).run s = (.ok c, s')) : ∃ b, x.run s = (.ok b, s') ∧ f b = c := by
  rw [run_map] at h
  generalize x.run s = out at h
  obtain ⟨_ | b, _⟩ := out <;> cases h
  exact ⟨b, rfl, rfl⟩

end Runs

namespace Work

variable {β γ : Type}

theorem ofExcept_ok {answer : Except Failure β} {b : β} {w w' : Workshop}
    (h : (ofExcept answer).run w = (.ok b, w')) : answer = .ok b ∧ w' = w := by
  cases h
  exact ⟨rfl, rfl⟩

@[simp] theorem run_ofExcept (answer : Except Failure β) (w : Workshop) :
    (ofExcept answer).run w = (answer, w) := rfl

@[simp] theorem run_get (w : Workshop) : (get : Work Workshop).run w = (.ok w, w) := rfl

end Work

namespace Registry

theorem run_nodes (order : Nat) (alpha : UInt32) (w : Workshop) :
    (nodes order alpha).run w =
      match Gauss.floatRule w.registry.config.limits order alpha with
      | .ok ns => (.ok ns, w.reportAll
          (stalledEvents alpha order w.registry.config.limits.iterations ns.stalled))
      | .error cause => (.error cause, w) := by
  unfold nodes
  simp only [run_bind, Work.run_get, Work.run_ofExcept]
  cases Gauss.floatRule w.registry.config.limits order alpha <;> rfl

/-- A kept rule is served; otherwise the new one is added to the workshop that building left. -/
theorem run_serve (kind : Kind) (order : Nat) (build : Work FloatRule) (w : Workshop) :
    (serve kind order build).run w =
      match w.registry.find? kind order with
      | some rule => (.ok rule, w.report (.served kind order))
      | none =>
        match build.run w with
        | (.ok rule, w') => (.ok ⟨w'.journal.nextId, rule⟩, w'.add kind order rule)
        | (.error cause, w') => (.error cause, w') := by
  unfold serve
  simp only [run_bind, Work.run_get]
  cases w.registry.find? kind order with
  | some rule => rfl
  | none =>
    simp only [run_bind]
    generalize build.run w = out
    obtain ⟨_ | rule, w'⟩ := out <;> rfl

/-- A request is refused without any effect, or served. -/
theorem run_rule (kind : Kind) (order : Nat) (w : Workshop) :
    (rule kind order).run w =
      match accept w.registry.config kind order with
      | .ok () => (serve kind order (build kind order)).run w
      | .error cause => (.error cause, w) := by
  unfold rule
  simp only [run_bind, Work.run_get, Work.run_ofExcept]
  cases accept w.registry.config kind order <;> rfl

theorem line_eq_rule (order : Nat) : line order = rule .line order := rfl

end Registry

/-! ## Moves -/

/-- Whether it answers or fails, the work is a sequence of moves. -/
def Work.Moves {β : Type} (x : Work β) : Prop := ∀ w : Workshop, w.Leads (x.run w).2

namespace Work

variable {β γ : Type}

theorem moves_pure (b : β) : (pure b : Work β).Moves := fun _ => .refl

theorem moves_ofExcept (answer : Except Failure β) : (ofExcept answer).Moves := fun _ => .refl

theorem moves_issue (value : β) : (issue value).Moves := fun w => .single (.issue w)

theorem moves_report {e : Event} (h : e.builtKey? = none) : (report e).Moves :=
  fun w => Workshop.leads_report w h

theorem Moves.bind {x : Work β} {f : β → Work γ} (hx : x.Moves) (hf : ∀ b, (f b).Moves) :
    (x >>= f).Moves := by
  intro w
  have hw := hx w
  rw [run_bind]
  generalize x.run w = out at hw
  obtain ⟨_ | b, w'⟩ := out
  · exact hw
  · exact hw.trans (hf b w')

end Work

namespace Registry

theorem moves_nodes (order : Nat) (alpha : UInt32) : (nodes order alpha).Moves := by
  intro w
  rw [run_nodes]
  split
  · refine .single (.report w fun e he => ?_)
    obtain ⟨_, -, rfl⟩ := List.mem_map.mp he
    rfl
  · exact .refl

/-- One-dimensional rules leave the registry as it is. -/
theorem nodes_ok {order : Nat} {alpha : UInt32} {w w' : Workshop} {ns : Gauss.Nodes Float}
    (h : (nodes order alpha).run w = (.ok ns, w')) :
    Gauss.floatRule w.registry.config.limits order alpha = .ok ns ∧ w'.registry = w.registry := by
  rw [run_nodes] at h
  split at h
  · rename_i hns
    cases h
    exact ⟨hns, rfl⟩
  · cases h

theorem moves_buildLine (order : Nat) : (buildLine order).Moves :=
  (moves_nodes order 0).bind fun _ => Work.moves_pure _

theorem buildLine_ok {order : Nat} {w w' : Workshop} {r : FloatRule}
    (h : (buildLine order).run w = (.ok r, w')) :
    w'.registry.Yields order .line r ∧ w'.registry = w.registry := by
  obtain ⟨ns, _, hns, hr⟩ := bind_ok h
  obtain ⟨hn, hw⟩ := nodes_ok hns
  cases hr
  exact ⟨.line (by rw [hw]; exact hn), hw⟩

/-- A tensor product is made from the line rule and must fit one table. -/
theorem tensor_ok (make : FloatRule → FloatRule) {order size : Nat} {w w' : Workshop}
    {r : FloatRule} (h : (do
      let line ← line order
      Work.ofExcept (Size.table size)
      pure (make line.value) : Work FloatRule).run w = (.ok r, w')) :
    ∃ l, (rule .line order).run w = (.ok l, w') ∧ Size.table size = .ok () ∧ r = make l.value := by
  obtain ⟨l, w₁, hl, h₁⟩ := bind_ok h
  obtain ⟨_, w₂, runSize, h₂⟩ := bind_ok h₁
  obtain ⟨hs, rfl⟩ := Work.ofExcept_ok runSize
  cases h₂
  exact ⟨l, hl, hs, rfl⟩

end Registry

/-- The work leaves alone what is kept under a key. -/
def Work.Spares {β : Type} (x : Work β) (kind : Kind) (order : Nat) : Prop :=
  ∀ w : Workshop, (x.run w).2.registry.find? kind order = w.registry.find? kind order

namespace Work

variable {β γ : Type} {kind : Kind} {order : Nat}

theorem spares_pure (b : β) : (pure b : Work β).Spares kind order := fun _ => rfl

theorem spares_ofExcept (answer : Except Failure β) : (ofExcept answer).Spares kind order :=
  fun _ => rfl

theorem Spares.bind {x : Work β} {f : β → Work γ} (hx : x.Spares kind order)
    (hf : ∀ b, (f b).Spares kind order) : (x >>= f).Spares kind order := by
  intro w
  have hw := hx w
  rw [run_bind]
  generalize x.run w = out at hw
  obtain ⟨_ | b, w'⟩ := out
  · exact hw
  · exact (hf b w').trans hw

end Work

namespace Registry

variable {kind kind' : Kind} {order order' : Nat}

theorem spares_nodes (alpha : UInt32) : (nodes order alpha).Spares kind' order' := by
  intro w
  rw [run_nodes]
  split <;> rfl

theorem spares_serve {build : Work FloatRule} (hb : build.Spares kind' order')
    (hne : (kind', order') ≠ (kind, order)) : (serve kind order build).Spares kind' order' := by
  intro w
  have hw := hb w
  rw [run_serve]
  split
  · rfl
  generalize build.run w = out at hw
  obtain ⟨_ | r, w'⟩ := out
  · exact hw
  · exact (find?_keep_of_ne _ _ hne).trans hw

theorem spares_line (hne : (kind', order') ≠ (.line, order)) :
    (line order).Spares kind' order' := by
  intro w
  rw [line_eq_rule, run_rule]
  split
  · exact spares_serve ((spares_nodes 0).bind fun _ => Work.spares_pure _) hne w
  · rfl

/-- Building a tensor product touches nothing but the line rule of its order, and building any other
rule touches nothing. -/
theorem spares_build
    (hline : kind = .quadrilateral ∨ kind = .hexahedron → (kind', order') ≠ (.line, order)) :
    (build kind order).Spares kind' order' := by
  cases kind with
  | arbitrary => exact Work.spares_ofExcept _
  | line => exact (spares_nodes 0).bind fun _ => Work.spares_pure _
  | quadrilateral | hexahedron =>
    exact (spares_line (hline (by simp))).bind fun _ => (Work.spares_ofExcept _).bind fun _ =>
      Work.spares_pure _
  | triangle =>
    exact (spares_nodes 0).bind fun _ => (spares_nodes 1).bind fun _ =>
      (Work.spares_ofExcept _).bind fun _ => Work.spares_pure _
  | tetrahedron =>
    exact (spares_nodes 0).bind fun _ => (spares_nodes 1).bind fun _ => (spares_nodes 2).bind
      fun _ => (Work.spares_ofExcept _).bind fun _ => Work.spares_pure _

/-- A request touches nothing but its own key and, for a tensor product, the line rule of its
order. -/
theorem spares_rule (hne : (kind', order') ≠ (kind, order))
    (hline : kind = .quadrilateral ∨ kind = .hexahedron → (kind', order') ≠ (.line, order)) :
    (rule kind order).Spares kind' order' := by
  intro w
  rw [run_rule]
  split
  · exact spares_serve (spares_build hline) hne w
  · rfl

/-- The rule that a request answers with is the one that is kept. -/
theorem find?_of_rule {w w' : Workshop} {r : Shared FloatRule}
    (h : (rule kind order).run w = (.ok r, w')) : w'.registry.find? kind order = some r := by
  rw [run_rule] at h
  split at h
  · rw [run_serve] at h
    split at h
    · rename_i hf
      cases h
      exact hf
    split at h <;> cases h
    exact find?_keep_self _ _ _ _
  · cases h

end Registry

/-- Moves leave the limits of the registry as they are. -/
theorem Workshop.Leads.config_eq {w w' : Workshop} (h : w.Leads w') :
    w'.registry.config = w.registry.config := by
  induction h with
  | refl => rfl
  | tail _ hm ih => cases hm <;> exact ih

namespace Registry

variable {kind : Kind} {order : Nat}

/-- Serving is a sequence of moves if building is, and building makes the rule that the key calls
for while the key stays free. -/
theorem moves_serve {build : Work FloatRule} {w : Workshop}
    (hacc : accept w.registry.config kind order = .ok ()) (hb : build.Moves)
    (hok : ∀ r w', w.registry.find? kind order = none → build.run w = (.ok r, w') →
      w'.registry.Yields order kind r ∧ w'.registry.find? kind order = none) :
    w.Leads ((serve kind order build).run w).2 := by
  rw [run_serve]
  split
  · exact Workshop.leads_report w rfl
  rename_i hfree
  have hw := hb w
  split
  · rename_i r w' hrun
    obtain ⟨hy, hf⟩ := hok r w' hfree hrun
    rw [hrun] at hw
    exact hw.tail (.add w' (hw.config_eq ▸ hacc) hf hy)
  · rename_i cause w' hrun
    rwa [hrun] at hw

theorem moves_line (order : Nat) : (line order).Moves := by
  intro w
  rw [line_eq_rule, run_rule]
  split
  · rename_i hacc
    refine moves_serve hacc (moves_buildLine order) fun r w' hfree hrun => ?_
    obtain ⟨hy, hw⟩ := buildLine_ok hrun
    exact ⟨hy, by rw [hw, hfree]⟩
  · exact .refl

theorem moves_build (kind : Kind) (order : Nat) : (build kind order).Moves := by
  cases kind with
  | arbitrary => exact Work.moves_ofExcept _
  | line => exact moves_buildLine order
  | quadrilateral | hexahedron =>
    exact (moves_line order).bind fun _ => (Work.moves_ofExcept _).bind fun _ => Work.moves_pure _
  | triangle =>
    exact (moves_nodes order 0).bind fun _ => (moves_nodes order 1).bind fun _ =>
      (Work.moves_ofExcept _).bind fun _ => Work.moves_pure _
  | tetrahedron =>
    exact (moves_nodes order 0).bind fun _ => (moves_nodes order 1).bind fun _ =>
      (moves_nodes order 2).bind fun _ => (Work.moves_ofExcept _).bind fun _ => Work.moves_pure _

/-- What is built is what the kind and the order call for. -/
theorem yields_of_build {w w' : Workshop} {r : FloatRule}
    (h : (build kind order).run w = (.ok r, w')) : w'.registry.Yields order kind r := by
  cases kind with
  | arbitrary => cases h
  | line => exact (buildLine_ok h).1
  | quadrilateral =>
    obtain ⟨l, hl, hs, rfl⟩ := tensor_ok Rule.quadrilateral h
    exact .quadrilateral (find?_of_rule hl) hs
  | hexahedron =>
    obtain ⟨l, hl, hs, rfl⟩ := tensor_ok Rule.hexahedron h
    exact .hexahedron (find?_of_rule hl) hs
  | triangle =>
    obtain ⟨s, w₁, runS, h₁⟩ := bind_ok h
    obtain ⟨t, w₂, runT, h₂⟩ := bind_ok h₁
    obtain ⟨_, w₃, runSize, h₃⟩ := bind_ok h₂
    obtain ⟨hs, e₁⟩ := nodes_ok runS
    obtain ⟨ht, e₂⟩ := nodes_ok runT
    obtain ⟨hsize, rfl⟩ := Work.ofExcept_ok runSize
    cases h₃
    rw [e₁] at ht e₂
    exact .triangle (e₂ ▸ hs) (e₂ ▸ ht) hsize
  | tetrahedron =>
    obtain ⟨s, w₁, runS, h₁⟩ := bind_ok h
    obtain ⟨t, w₂, runT, h₂⟩ := bind_ok h₁
    obtain ⟨u, w₃, runU, h₃⟩ := bind_ok h₂
    obtain ⟨_, w₄, runSize, h₄⟩ := bind_ok h₃
    obtain ⟨hs, e₁⟩ := nodes_ok runS
    obtain ⟨ht, e₂⟩ := nodes_ok runT
    obtain ⟨hu, e₃⟩ := nodes_ok runU
    obtain ⟨hsize, rfl⟩ := Work.ofExcept_ok runSize
    cases h₄
    rw [e₁] at ht e₂
    rw [e₂] at hu e₃
    exact .tetrahedron (e₃ ▸ hs) (e₃ ▸ ht) (e₃ ▸ hu) hsize

/-- Every request for a rule is a sequence of moves. -/
theorem moves_rule (kind : Kind) (order : Nat) : (rule kind order).Moves := by
  by_cases hk : kind = .line
  · subst hk
    rw [← line_eq_rule]
    exact moves_line order
  intro w
  rw [run_rule]
  split
  · rename_i hacc
    refine moves_serve hacc (moves_build kind order) fun r w' hfree hrun => ?_
    -- At most the line rule of the order was added while the rule was built.
    have hspared : ((build kind order).run w).2.registry.find? kind order =
        w.registry.find? kind order := spares_build (fun _ => by simp [hk]) w
    rw [hrun, hfree] at hspared
    exact ⟨yields_of_build hrun, hspared⟩
  · exact .refl

theorem moves_ruleForElement (name : String) (order : Nat) : (ruleForElement name order).Moves :=
  (Work.moves_ofExcept _).bind fun kind => moves_rule kind order

theorem moves_sideRule (r : FloatRule) : (sideRule r).Moves := by
  unfold sideRule
  split
  · exact Work.moves_ofExcept _
  · exact moves_rule _ _

theorem moves_changeOrder (r : FloatRule) (order : Nat) : (changeOrder r order).Moves := by
  unfold changeOrder
  split
  · exact Work.moves_ofExcept _
  · exact moves_rule _ _

theorem moves_rules (keys : List RuleKey) : (rules keys).Moves := by
  induction keys with
  | nil => exact Work.moves_pure ()
  | cons key rest ih => exact (moves_rule key.1 key.2).bind fun _ => ih

theorem moves_warmUp (kinds : List Kind) (orders : List Nat) : (warmUp kinds orders).Moves :=
  (Work.moves_report rfl).bind fun _ => moves_rules _

end Registry

end Cubature
