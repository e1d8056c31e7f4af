import Cubature.Proofs.Registry.Convergence

/-!
# What a registry reports

The reports of a registry tell what it built and what it served.

* `Workshop.Leads.builtCount_eq`: work reports as many rules of a kind and an order as built as it
  adds under them, which is one or none.
* `Registry.transcript`, `Registry.appends_rule`: the reports of a request that is answered are
  known beforehand, from the limits and from which rules are kept.
* `Registry.Records`, `Registry.records_transcript`: among them is one record about the rule, the
  record about the line rule of a tensor product stands right before it, and the warnings come
  first.
-/

namespace Cubature

/-- The kind and the order of the rule that a record is about: it was served, or it was built. -/
def Event.ruleKey? : Event → Option RuleKey
  | .served kind order | .built kind order _ => some (kind, order)
  | _ => none

@[simp] theorem Event.ruleKey?_served (kind : Kind) (order : Nat) :
    (Event.served kind order).ruleKey? = some (kind, order) := rfl

@[simp] theorem Event.ruleKey?_built (kind : Kind) (order npoints : Nat) :
    (Event.built kind order npoints).ruleKey? = some (kind, order) := rfl

/-- The number of reports that the rule of a kind and an order was built. -/
def builtCount (events : List Event) (kind : Kind) (order : Nat) : Nat :=
  events.countP fun e => e.builtKey? = some (kind, order)

theorem builtCount_append (events events' : List Event) (kind : Kind) (order : Nat) :
    builtCount (events ++ events') kind order =
      builtCount events kind order + builtCount events' kind order := List.countP_append

theorem builtCount_eq_zero {events : List Event} (h : ∀ e ∈ events, e.builtKey? = none)
    (kind : Kind) (order : Nat) : builtCount events kind order = 0 := by
  refine List.countP_eq_zero.mpr fun e he => ?_
  simp [h e he]

theorem builtCount_built (kind kind' : Kind) (order order' npoints : Nat) :
    builtCount [.built kind order npoints] kind' order' =
      if (kind', order') = (kind, order) then 1 else 0 := by
  simp only [builtCount, List.countP_singleton, Event.builtKey?, Option.some.injEq,
    decide_eq_true_eq, eq_comm (a := (kind, order))]

/-- The number of rules that are kept for a kind and an order. -/
def Registry.keptCount (r : Registry) (kind : Kind) (order : Nat) : Nat :=
  if (r.find? kind order).isSome then 1 else 0

/-- The log of the second workshop goes on from that of the first with the events. -/
def Workshop.Appends (w : Workshop) (events : List Event) (w' : Workshop) : Prop :=
  w'.journal.log.toList = w.journal.log.toList ++ events

namespace Workshop

variable {w w' w'' : Workshop} {events events' : List Event}

theorem Appends.refl (w : Workshop) : w.Appends [] w := (List.append_nil _).symm

theorem Appends.trans (h : w.Appends events w') (h' : w'.Appends events' w'') :
    w.Appends (events ++ events') w'' := by
  rw [Appends, h', h, List.append_assoc]

theorem Appends.congr (h : w.Appends events w') (heq : events = events') :
    w.Appends events' w' := heq ▸ h

theorem appends_reportAll (w : Workshop) (events : List Event) :
    w.Appends events (w.reportAll events) := by
  simp [Appends, reportAll, Journal.reportAll]

theorem appends_add (w : Workshop) (kind : Kind) (order : Nat) (rule : FloatRule) :
    w.Appends [.built kind order rule.npoints] (w.add kind order rule) := Array.toList_push ..

/-! ## Counts -/

/-- A move reports a rule as built exactly if it adds the rule, under a key that was free. -/
theorem Move.builtCount_eq (h : Move w w') : ∃ events, w.Appends events w' ∧
    ∀ kind order, w.registry.keptCount kind order + builtCount events kind order =
      w'.registry.keptCount kind order := by
  cases h with
  | @report events hnone =>
    refine ⟨events, appends_reportAll w events, fun kind order => ?_⟩
    rw [builtCount_eq_zero hnone]
    rfl
  | issue => exact ⟨[], .refl _, fun _ _ => rfl⟩
  | @add kind order rule hacc hfree =>
    refine ⟨_, appends_add w kind order rule, fun kind' order' => ?_⟩
    have hfind : (w.add kind order rule).registry.find? kind' order' =
        if (kind', order') = (kind, order) then some ⟨w.journal.nextId, rule⟩
        else w.registry.find? kind' order' := Registry.find?_keep ..
    rw [builtCount_built, Registry.keptCount, Registry.keptCount, hfind]
    by_cases he : (kind', order') = (kind, order)
    · obtain ⟨rfl, rfl⟩ := Prod.mk.inj he
      simp [hfree]
    · rw [if_neg he, if_neg he, Nat.add_zero]

/-- Work reports as many rules of a kind and an order as built as it adds. -/
theorem Leads.builtCount_eq (h : w.Leads w') : ∃ events, w.Appends events w' ∧
    ∀ kind order, w.registry.keptCount kind order + builtCount events kind order =
      w'.registry.keptCount kind order := by
  induction h with
  | refl => exact ⟨[], .refl w, fun _ _ => rfl⟩
  | tail _ hm ih =>
    obtain ⟨events, hlog, hcount⟩ := ih
    obtain ⟨events', hlog', hcount'⟩ := hm.builtCount_eq
    refine ⟨events ++ events', hlog.trans hlog', fun kind order => ?_⟩
    rw [builtCount_append, ← Nat.add_assoc, hcount, hcount']

end Workshop

/-! ## Transcripts -/

/-- The warnings of the searches for the one-dimensional rules of some exponents. -/
def Gauss.warnings (limits : Limits Float) (order : Nat) (exponents : List UInt32) : List Event :=
  exponents.flatMap fun alpha =>
    match floatRule limits order alpha with
    | .ok nodes => stalledEvents alpha order limits.iterations nodes.stalled
    | .error _ => []

theorem Gauss.warnings_append (limits : Limits Float) (order : Nat) (as bs : List UInt32) :
    warnings limits order (as ++ bs) = warnings limits order as ++ warnings limits order bs :=
  List.flatMap_append

theorem Gauss.level_of_mem_warnings {limits : Limits Float} {order : Nat} {exponents : List UInt32}
    {e : Event} (h : e ∈ warnings limits order exponents) :
    e.level = .warn ∧ e.ruleKey? = none := by
  obtain ⟨alpha, -, he⟩ := List.mem_flatMap.mp h
  split at he
  · obtain ⟨node, -, rfl⟩ := List.mem_map.mp he
    exact ⟨rfl, rfl⟩
  · cases he

namespace Registry

/-- The record of a rule that is built. -/
def builtRecord (kind : Kind) (order : Nat) : Event :=
  .built kind order ((kind.pointCount? order).getD 0)

/-- The reports when a rule is served or, after the reports of the work on it, built. -/
def recount (r : Registry) (kind : Kind) (order : Nat) (building : List Event) : List Event :=
  if (r.find? kind order).isSome then [.served kind order]
  else building ++ [builtRecord kind order]

/-- The reports while a rule is built: of the searches, and of the line rule of a tensor product. -/
def buildReports (r : Registry) (kind : Kind) (order : Nat) : List Event :=
  let warnings := Gauss.warnings r.config.limits order kind.exponents
  if kind = .quadrilateral ∨ kind = .hexahedron then r.recount .line order warnings else warnings

/-- The reports of a request for a rule that is answered. -/
def transcript (r : Registry) (kind : Kind) (order : Nat) : List Event :=
  r.recount kind order (r.buildReports kind order)

variable {r : Registry} {w w' : Workshop} {kind : Kind} {order : Nat} {value : FloatRule}
  {rule : Shared FloatRule} {building : List Event}

theorem appends_nodes {alpha : UInt32} {ns : Gauss.Nodes Float}
    (h : (nodes order alpha).run w = (.ok ns, w')) :
    w.Appends (Gauss.warnings w.registry.config.limits order [alpha]) w' := by
  have hns := (nodes_ok h).1
  rw [run_nodes, hns] at h
  cases h
  refine (Workshop.appends_reportAll w _).congr ?_
  rw [Gauss.warnings, List.flatMap_singleton, hns]

/-- Searches one after another. -/
theorem appends_nodes_bind {β : Type} {alpha : UInt32} {exponents : List UInt32} {b : β}
    {f : Gauss.Nodes Float → Work β}
    (hf : ∀ {ns w₁}, w₁.registry = w.registry → (f ns).run w₁ = (.ok b, w') →
      w₁.Appends (Gauss.warnings w.registry.config.limits order exponents) w')
    (h : (nodes order alpha >>= f).run w = (.ok b, w')) :
    w.Appends (Gauss.warnings w.registry.config.limits order (alpha :: exponents)) w' := by
  obtain ⟨ns, w₁, hns, h₁⟩ := bind_ok h
  exact ((appends_nodes hns).trans (hf (nodes_ok hns).2 h₁)).congr
    (Gauss.warnings_append _ _ [alpha] exponents).symm

theorem appends_table {β : Type} {size : Nat} {b c : β}
    (h : (do Work.ofExcept (Size.table size); pure b : Work β).run w = (.ok c, w')) :
    w.Appends [] w' := by
  obtain ⟨_, w₁, hsize, h₁⟩ := bind_ok h
  obtain ⟨-, rfl⟩ := Work.ofExcept_ok hsize
  cases h₁
  exact .refl _

theorem appends_buildLine (h : (buildLine order).run w = (.ok value, w')) :
    w.Appends (Gauss.warnings w.registry.config.limits order [0]) w' :=
  appends_nodes_bind (fun _ h => by cases h; exact .refl _) h

/-- The rule that a request answers with has the shape of its kind and order. -/
theorem fits_of_rule (hw : w.registry.WellKept)
    (h : (Registry.rule kind order).run w = (.ok rule, w')) : rule.value.Fits kind order := by
  have hmoves := moves_rule kind order w
  rw [h] at hmoves
  exact (hmoves.wellKept hw).fits (find?_of_rule h)

/-- A request that is answered serves the rule, or builds it. -/
theorem appends_recount (hw : w.registry.WellKept)
    (hbuild : ∀ {value w₁}, (build kind order).run w = (.ok value, w₁) → w.Appends building w₁)
    (h : (Registry.rule kind order).run w = (.ok rule, w')) :
    w.Appends (w.registry.recount kind order building) w' := by
  have hcount := (fits_of_rule hw h).pointCount_eq
  cases hfind : w.registry.find? kind order with
  | some kept =>
    rw [recount, hfind, Option.isSome_some, if_pos rfl]
    rw [run_rule] at h
    split at h
    · rw [run_serve, hfind] at h
      cases h
      exact Array.toList_push ..
    · cases h
  | none =>
    obtain ⟨-, w₁, hrun, rfl⟩ := rule_of_free hfind h
    refine ((hbuild hrun).trans (Workshop.appends_add w₁ kind order _)).congr ?_
    simp [recount, hfind, builtRecord, hcount]

theorem appends_line (hw : w.registry.WellKept)
    (h : (Registry.rule .line order).run w = (.ok rule, w')) :
    w.Appends (w.registry.recount .line order
      (Gauss.warnings w.registry.config.limits order [0])) w' :=
  appends_recount hw (fun h => appends_buildLine h) h

theorem appends_build (hw : w.registry.WellKept) (h : (build kind order).run w = (.ok value, w')) :
    w.Appends (w.registry.buildReports kind order) w' := by
  cases kind with
  | arbitrary => cases h
  | line => exact appends_buildLine h
  | quadrilateral =>
    obtain ⟨line, hline, -⟩ := tensor_ok Rule.quadrilateral h
    exact appends_line hw hline
  | hexahedron =>
    obtain ⟨line, hline, -⟩ := tensor_ok Rule.hexahedron h
    exact appends_line hw hline
  | triangle =>
    refine appends_nodes_bind (fun hr h => ?_) h
    rw [← hr]
    exact appends_nodes_bind (fun _ h => appends_table h) h
  | tetrahedron =>
    refine appends_nodes_bind (fun hr h => ?_) h
    rw [← hr]
    refine appends_nodes_bind (fun hr h => ?_) h
    rw [← hr]
    exact appends_nodes_bind (fun _ h => appends_table h) h

/-- A request that is answered adds its transcript to the log. -/
theorem appends_rule (hw : w.registry.WellKept)
    (h : (Registry.rule kind order).run w = (.ok rule, w')) :
    w.Appends (w.registry.transcript kind order) w' :=
  appends_recount hw (fun h => appends_build hw h) h

/-! ## Records -/

/-- What the reports of a request for a rule tell, where `r` is the registry before it.

* Exactly one record is about the rule. It says that the rule was served if it was kept, and that it
  was built, with its number of points, if not. A rule that is served is all that is reported.
* When a rule is built, all warnings come before the record.
* When a tensor product is built, the record right before is the only one about the line rule: that
  it was served if it was kept, and built if not. Before it come the warnings. -/
structure Records (r : Registry) (kind : Kind) (order npoints : Nat) (events : List Event) :
    Prop where
  npoints_eq : kind.pointCount? order = some npoints
  one : events.filter (fun e => e.ruleKey? = some (kind, order)) =
    [if (r.find? kind order).isSome then .served kind order else .built kind order npoints]
  served : (r.find? kind order).isSome → events = [.served kind order]
  built : r.find? kind order = none → kind ≠ .quadrilateral ∧ kind ≠ .hexahedron →
    ∃ warnings, events = warnings ++ [.built kind order npoints] ∧ ∀ e ∈ warnings, e.level = .warn
  line : r.find? kind order = none → kind = .quadrilateral ∨ kind = .hexahedron →
    ∃ warnings record, events = warnings ++ [record, .built kind order npoints] ∧
      (∀ e ∈ warnings, e.level = .warn) ∧
      record = (if (r.find? .line order).isSome then .served .line order
        else .built .line order order) ∧
      events.filter (fun e => e.ruleKey? = some (.line, order)) = [record]

/-- Records about a key after warnings are the records about it. -/
theorem filter_ruleKey_warnings {limits : Gauss.Limits Float} {exponents : List UInt32}
    (key : RuleKey) (events : List Event) :
    (Gauss.warnings limits order exponents ++ events).filter (fun e => e.ruleKey? = some key) =
      events.filter (fun e => e.ruleKey? = some key) := by
  have hnone : (Gauss.warnings limits order exponents).filter
      (fun e => e.ruleKey? = some key) = [] := by
    refine List.filter_eq_nil_iff.mpr fun e he => ?_
    simp [(Gauss.level_of_mem_warnings he).2]
  rw [List.filter_append, hnone, List.nil_append]

/-- The record of the line rule of an order. -/
def lineRecord (r : Registry) (order : Nat) : Event :=
  if (r.find? .line order).isSome then .served .line order else .built .line order order

@[simp] theorem ruleKey?_lineRecord (r : Registry) (order : Nat) :
    (r.lineRecord order).ruleKey? = some (.line, order) := by
  unfold lineRecord
  split <;> rfl

/-- The line rule is reported by its record, after the warnings if it is built. -/
theorem exists_recount_line (r : Registry) (order : Nat) (exponents : List UInt32) :
    ∃ exponents', r.recount .line order (Gauss.warnings r.config.limits order exponents) =
      Gauss.warnings r.config.limits order exponents' ++ [r.lineRecord order] := by
  unfold recount lineRecord
  split
  · exact ⟨[], rfl⟩
  · exact ⟨exponents, rfl⟩

section Transcript

variable {npoints : Nat}

theorem transcript_of_kept (hkept : (r.find? kind order).isSome) :
    r.transcript kind order = [.served kind order] := if_pos hkept

theorem transcript_of_free (hfree : r.find? kind order = none)
    (hcount : kind.pointCount? order = some npoints) :
    r.transcript kind order = r.buildReports kind order ++ [.built kind order npoints] := by
  simp [transcript, recount, hfree, builtRecord, hcount]

theorem exists_transcript_of_tensor (hfree : r.find? kind order = none)
    (hcount : kind.pointCount? order = some npoints)
    (htensor : kind = .quadrilateral ∨ kind = .hexahedron) :
    ∃ exponents, r.transcript kind order = Gauss.warnings r.config.limits order exponents ++
      [r.lineRecord order, .built kind order npoints] := by
  obtain ⟨exponents, hline⟩ := exists_recount_line r order kind.exponents
  refine ⟨exponents, ?_⟩
  rw [transcript_of_free hfree hcount, buildReports, if_pos htensor, hline, List.append_assoc]
  rfl

/-- The reports of a request that is answered tell what was served and built. -/
theorem records_transcript (r : Registry) (hcount : kind.pointCount? order = some npoints) :
    r.Records kind order npoints (r.transcript kind order) := by
  cases hfind : r.find? kind order with
  | some rule =>
    have hkept : (r.find? kind order).isSome := by rw [hfind]; rfl
    have hserved := transcript_of_kept hkept
    exact
      { npoints_eq := hcount
        one := by simp [hserved, hfind]
        served := fun _ => hserved
        built := by simp [hfind]
        line := by simp [hfind] }
  | none =>
    -- The other kinds have no record about a line rule before theirs.
    by_cases htensor : kind = .quadrilateral ∨ kind = .hexahedron
    · obtain ⟨exponents, heq⟩ := exists_transcript_of_tensor hfind hcount htensor
      have hne : kind ≠ .line := by
        rintro rfl
        simp at htensor
      exact
        { npoints_eq := hcount
          one := by
            rw [heq, filter_ruleKey_warnings]
            simp [hfind, Ne.symm hne]
          served := by simp [hfind]
          built := fun _ hnot => absurd htensor (not_or.mpr hnot)
          line := fun _ _ => by
            refine ⟨_, _, heq, fun e he => (Gauss.level_of_mem_warnings he).1, rfl, ?_⟩
            rw [heq, filter_ruleKey_warnings]
            simp [hne] }
    · have heq := transcript_of_free hfind hcount
      rw [buildReports, if_neg htensor] at heq
      exact
        { npoints_eq := hcount
          one := by
            rw [heq, filter_ruleKey_warnings]
            simp [hfind]
          served := by simp [hfind]
          built := fun _ _ => ⟨_, heq, fun e he => (Gauss.level_of_mem_warnings he).1⟩
          line := fun _ h => absurd h htensor }

end Transcript

end Registry

end Cubature
