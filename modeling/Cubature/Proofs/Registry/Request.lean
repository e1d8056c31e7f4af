import Cubature.Proofs.Registry.Invariant

/-!
# Requests that are answered

Which requests for a rule are answered, and which keys they can add.

* `Registry.accept_arbitrary`, `Registry.accept_of_outside`: arbitrary rules are refused first,
  then orders outside the limits.
* `Registry.answers_rule`: an accepted request is answered whenever the coordinates of its rule fit
  one table. Work of several parts is answered if each part is.
* `Registry.addedKeys`, `Registry.isSome_after_rule`: after an answer the registry keeps what it
  kept, the requested key, and the line rule of a tensor product.
-/

namespace Cubature

open scoped Scalar

/-! ## Sizes -/

/-- The number of coordinates of a rule. -/
def Kind.coordCount (kind : Kind) (order : Nat) : Nat :=
  (kind.pointCount? order).getD 0 * kind.dim?.getD 0

theorem Kind.order_le_coordCount {kind : Kind} (hk : kind ≠ .arbitrary) (order : Nat) :
    order ≤ kind.coordCount order := by
  have hsq : order ≤ order * order := Nat.le_mul_self order
  have hcube : order * order ≤ order * order * order := by
    rcases Nat.eq_zero_or_pos order with rfl | hpos
    · exact Nat.le_refl 0
    · exact Nat.le_mul_of_pos_right _ hpos
  cases kind with
  | arbitrary => exact absurd rfl hk
  | _ =>
    simp only [coordCount, pointCount?, dim?, Option.getD_some]
    omega

/-- A one-dimensional rule is made for every positive number of points that fits a table, unless
the exponent of the factor two is out of range. -/
theorem Gauss.rule_isOk {α : Type} [Scalar α] (start : Nat → Nat → α) (limits : Limits α) {n : Nat}
    {alpha : UInt32} {exponent : Int} (hpos : 1 ≤ n) (hn : n < Size.tableLimit)
    (hexponent : weightExponent alpha = .ok exponent) :
    ∃ nodes, rule start limits n alpha = .ok nodes := by
  unfold rule
  rw [if_neg (by omega), Size.table_eq_ok hn, hexponent]
  by_cases halpha : alpha = 0
  · exact ⟨_, if_pos halpha⟩
  · exact ⟨_, if_neg halpha⟩

/-! ## Refusals -/

namespace Registry

variable {config : Config} {kind kind' : Kind} {order order' : Nat}

theorem accept_arbitrary (config : Config) (order : Nat) :
    accept config .arbitrary order =
      .error (.rejected (.unsupported "cached instance" Kind.arbitrary.name)) := rfl

theorem accept_of_outside (hk : kind ≠ .arbitrary) (h : order = 0 ∨ config.maxOrder < order) :
    accept config kind order = .error (.rejected (.invalidOrder order config.maxOrder)) := by
  unfold accept requireCached
  rw [if_neg hk]
  exact if_pos h

theorem accept_of_within (hk : kind ≠ .arbitrary) (hpos : 1 ≤ order)
    (hmax : order ≤ config.maxOrder) : accept config kind order = .ok () := by
  unfold accept requireCached
  rw [if_neg hk]
  exact if_neg (by omega)

end Registry

/-! ## Answers -/

/-- The work is answered in every workshop with the given limits. -/
def Work.Answers {β : Type} (x : Work β) (config : Config) : Prop :=
  ∀ w : Workshop, w.registry.config = config → ∃ b w', x.run w = (.ok b, w')

namespace Work

variable {β γ : Type} {config : Config}

theorem answers_pure (b : β) : (pure b : Work β).Answers config := fun w _ => ⟨b, w, rfl⟩

theorem answers_ofExcept {answer : Except Failure β} {b : β} (h : answer = .ok b) :
    (ofExcept answer).Answers config := fun w _ => ⟨b, w, by rw [run_ofExcept, h]⟩

/-- The first part is a sequence of moves, so the second works under the same limits. -/
theorem Answers.bind {x : Work β} {f : β → Work γ} (hmoves : x.Moves) (hx : x.Answers config)
    (hf : ∀ b, (f b).Answers config) : (x >>= f).Answers config := by
  intro w hw
  obtain ⟨b, w', hrun⟩ := hx w hw
  have hw' := (hmoves w).config_eq
  rw [hrun] at hw'
  rw [run_bind, hrun]
  exact hf b w' (hw'.trans hw)

/-- What fits one table is passed on. -/
theorem answers_table {entries : Nat} (h : entries < Size.tableLimit) (b : β) :
    (do ofExcept (Size.table entries); pure b : Work β).Answers config :=
  (answers_ofExcept (Size.table_eq_ok h)).bind (moves_ofExcept _) fun _ => answers_pure b

end Work

namespace Registry

variable {config : Config} {kind kind' : Kind} {order order' : Nat}

theorem answers_nodes {alpha : UInt32} {exponent : Int} (hpos : 1 ≤ order)
    (hsize : order < Size.tableLimit) (hexponent : Gauss.weightExponent alpha = .ok exponent) :
    (nodes order alpha).Answers config := by
  intro w _
  obtain ⟨ns, hns⟩ :=
    Gauss.rule_isOk Gauss.chebyshevStart w.registry.config.limits hpos hsize hexponent
  rw [run_nodes, Gauss.floatRule, hns]
  exact ⟨ns, _, rfl⟩

theorem answers_nodes_bind {β : Type} {alpha : UInt32} {exponent : Int}
    {f : Gauss.Nodes Float → Work β} (hpos : 1 ≤ order) (hsize : order < Size.tableLimit)
    (hexponent : Gauss.weightExponent alpha = .ok exponent) (hf : ∀ ns, (f ns).Answers config) :
    (nodes order alpha >>= f).Answers config :=
  (answers_nodes hpos hsize hexponent).bind (moves_nodes order alpha) hf

/-- Serving is answered if building is. -/
theorem answers_serve {build : Work FloatRule} (hb : build.Answers config) :
    (serve kind order build).Answers config := by
  intro w hw
  obtain ⟨rule, w', hrun⟩ := hb w hw
  rw [run_serve]
  split
  · exact ⟨_, _, rfl⟩
  · rw [hrun]
    exact ⟨_, _, rfl⟩

theorem answers_line (hpos : 1 ≤ order) (hmax : order ≤ config.maxOrder)
    (hsize : order < Size.tableLimit) : (line order).Answers config := by
  intro w hw
  have hbuild : (buildLine order).Answers config :=
    answers_nodes_bind hpos hsize rfl fun _ => Work.answers_pure _
  rw [line_eq_rule, run_rule, hw, accept_of_within (by decide) hpos hmax]
  exact answers_serve hbuild w hw

theorem answers_build (hk : kind ≠ .arbitrary) (hpos : 1 ≤ order) (hmax : order ≤ config.maxOrder)
    (hsize : kind.coordCount order < Size.tableLimit) : (build kind order).Answers config := by
  have horder := Nat.lt_of_le_of_lt (Kind.order_le_coordCount hk order) hsize
  rw [Kind.coordCount, Nat.mul_comm] at hsize
  cases kind with
  | arbitrary => exact absurd rfl hk
  | line => exact answers_nodes_bind hpos horder rfl fun _ => Work.answers_pure _
  | quadrilateral | hexahedron =>
    exact (answers_line hpos hmax horder).bind (moves_line order) fun _ =>
      Work.answers_table hsize _
  | triangle =>
    exact answers_nodes_bind hpos horder rfl fun _ => answers_nodes_bind hpos horder rfl fun _ =>
      Work.answers_table hsize _
  | tetrahedron =>
    exact answers_nodes_bind hpos horder rfl fun _ => answers_nodes_bind hpos horder rfl fun _ =>
      answers_nodes_bind hpos horder rfl fun _ => Work.answers_table hsize _

/-- Every request that is accepted and whose rule fits one table is answered. -/
theorem answers_rule (hk : kind ≠ .arbitrary) (hpos : 1 ≤ order) (hmax : order ≤ config.maxOrder)
    (hsize : kind.coordCount order < Size.tableLimit) : (rule kind order).Answers config := by
  intro w hw
  rw [run_rule, hw, accept_of_within hk hpos hmax]
  exact answers_serve (answers_build hk hpos hmax hsize) w hw

/-! ## Keys -/

/-- The keys under which a request can add rules. -/
def addedKeys (kind : Kind) (order : Nat) : List RuleKey :=
  if kind = .quadrilateral ∨ kind = .hexahedron then [(kind, order), (.line, order)]
  else [(kind, order)]

theorem mem_addedKeys :
    (kind', order') ∈ addedKeys kind order ↔ (kind', order') = (kind, order) ∨
      (kind = .quadrilateral ∨ kind = .hexahedron) ∧ (kind', order') = (.line, order) := by
  unfold addedKeys
  split <;> simp_all

/-- The keys after an answer. The line rule of a tensor product is there also if the product was
kept already. -/
theorem isSome_after_rule {w w' : Workshop} {r : Shared FloatRule} (hw : w.registry.WellKept)
    (h : (rule kind order).run w = (.ok r, w')) :
    (w'.registry.find? kind' order').isSome ↔
      (w.registry.find? kind' order').isSome ∨ (kind', order') ∈ addedKeys kind order := by
  have hmoves := moves_rule kind order w
  rw [h] at hmoves
  have hkept := find?_of_rule h
  constructor
  · intro hsome
    by_cases hmem : (kind', order') ∈ addedKeys kind order
    · exact .inr hmem
    · obtain ⟨hne, hline⟩ := not_or.mp (mt mem_addedKeys.mpr hmem)
      have hspared := spares_rule hne (fun ht he => hline ⟨ht, he⟩) w
      rw [h] at hspared
      exact .inl (hspared ▸ hsome)
  · rintro (hold | hmem)
    · obtain ⟨rule, hold⟩ := Option.isSome_iff_exists.mp hold
      rw [hmoves.grown.find?_eq hold]
      rfl
    · rcases mem_addedKeys.mp hmem with he | ⟨ht, he⟩ <;> obtain ⟨rfl, rfl⟩ := Prod.mk.inj he
      · rw [hkept]
        rfl
      · exact (hmoves.wellKept hw).line ht (by rw [hkept]; rfl)

end Registry

end Cubature
