import Cubature.Proofs.Registry.Moves
import Cubature.Proofs.Rule.Shape

/-!
# What moves keep

The invariant of a registry and what every sequence of moves does to it.

* `Registry.WellKept`: every kept rule has an order within the limits and the shape of its key, and
  a tensor product is kept beside its line rule. Moves keep this (`Workshop.Leads.wellKept`).
* `Workshop.Grown`: what is kept stays kept, numbers are only issued upwards, and a rule that is new
  has a number that is new. Every sequence of moves is growth (`Workshop.Leads.grown`).
* `Workshop.Distinct`: different keys keep rules of different numbers, all of them issued
  (`Workshop.Leads.distinct`).
* `Workshop.Leads.reports`: the keys that became kept are those that the new reports name as built.
-/

namespace Cubature

namespace Registry

variable {kind kind' : Kind} {order order' : Nat}

/-- A kept rule is found under its key, and other keys find what they found. -/
theorem find?_keep (r : Registry) (rule : Shared FloatRule) :
    (r.keep kind order rule).find? kind' order' =
      if (kind', order') = (kind, order) then some rule else r.find? kind' order' := by
  split
  · rename_i h
    obtain ⟨rfl, rfl⟩ := Prod.mk.inj h
    exact find?_keep_self _ _ _ _
  · rename_i h
    exact find?_keep_of_ne _ _ h

/-- What is found was kept now or found before. -/
theorem find?_keep_cases {r : Registry} {rule rule' : Shared FloatRule}
    (h : (r.keep kind order rule).find? kind' order' = some rule') :
    (kind' = kind ∧ order' = order ∧ rule' = rule) ∨ r.find? kind' order' = some rule' := by
  rw [find?_keep] at h
  split at h
  · rename_i he
    obtain ⟨rfl, rfl⟩ := Prod.mk.inj he
    exact .inl ⟨rfl, rfl, (Option.some.inj h).symm⟩
  · exact .inr h

/-- Every kept rule has an order within the limits and the shape of its key, and a tensor product
is kept beside the line rule of its order. -/
structure WellKept (r : Registry) : Prop where
  order_le : ∀ {kind order rule}, r.find? kind order = some rule →
    1 ≤ order ∧ order ≤ r.config.maxOrder
  fits : ∀ {kind order rule}, r.find? kind order = some rule → rule.value.Fits kind order
  line : ∀ {kind order}, kind = .quadrilateral ∨ kind = .hexahedron →
    (r.find? kind order).isSome → (r.find? .line order).isSome

theorem wellKept_empty (config : Config) : ({ config } : Registry).WellKept where
  order_le h := by cases h
  fits h := by cases h
  line _ h := by cases h

/-- What a well-kept registry adds has the shape of its key. -/
theorem Yields.fits {r : Registry} {rule : FloatRule} (hr : r.WellKept)
    (h : r.Yields order kind rule) : rule.Fits kind order := by
  cases h with
  | line h =>
    obtain ⟨hn, hl, hw⟩ := Gauss.length_rule h
    exact Rule.fits_line hn hl hw
  | quadrilateral h hsize =>
    have := Size.table_ok hsize
    exact Rule.fits_quadrilateral (hr.fits h) (by omega)
  | hexahedron h hsize =>
    have := Size.table_ok hsize
    exact Rule.fits_hexahedron (hr.fits h) (by omega)
  | triangle hs ht hsize =>
    obtain ⟨hxs, hws⟩ := Gauss.length_onUnit hs 0
    obtain ⟨hxt, hwt⟩ := Gauss.length_onUnit ht 1
    have := Size.table_ok hsize
    exact Rule.fits_triangle hxs hxt hws hwt (by omega)
  | tetrahedron hs ht hu hsize =>
    obtain ⟨hxs, hws⟩ := Gauss.length_onUnit hs 0
    obtain ⟨hxt, hwt⟩ := Gauss.length_onUnit ht 1
    obtain ⟨hxu, hwu⟩ := Gauss.length_onUnit hu 2
    have := Size.table_ok hsize
    exact Rule.fits_tetrahedron hxs hxt hxu hws hwt hwu (by omega)

/-- A tensor product is only added beside its line rule. -/
theorem Yields.line_isSome {r : Registry} {rule : FloatRule} (h : r.Yields order kind rule)
    (hk : kind = .quadrilateral ∨ kind = .hexahedron) : (r.find? .line order).isSome := by
  cases h with
  | line | triangle | tetrahedron => simp at hk
  | quadrilateral h | hexahedron h => simp [h]

/-- Keeping the rule that a key calls for keeps a registry well kept. -/
theorem WellKept.keep {r : Registry} (hr : r.WellKept) {rule : Shared FloatRule}
    (hacc : accept r.config kind order = .ok ()) (hy : r.Yields order kind rule.value) :
    (r.keep kind order rule).WellKept where
  order_le h := by
    rcases find?_keep_cases h with ⟨rfl, rfl, rfl⟩ | h
    · exact (accept_ok hacc).2
    · exact hr.order_le h
  fits h := by
    rcases find?_keep_cases h with ⟨rfl, rfl, rfl⟩ | h
    · exact hy.fits hr
    · exact hr.fits h
  line hk h := by
    rw [find?_keep] at h ⊢
    split
    · rfl
    split at h
    · rename_i he
      obtain ⟨rfl, rfl⟩ := Prod.mk.inj he
      exact hy.line_isSome hk
    · exact hr.line hk h

end Registry

namespace Workshop

theorem Move.wellKept {w w' : Workshop} (h : Move w w') (hw : w.registry.WellKept) :
    w'.registry.WellKept := by
  cases h with
  | report | issue => exact hw
  | add hacc hfree hy => exact hw.keep hacc hy

/-- Moves keep a registry well kept. -/
theorem Leads.wellKept {w w' : Workshop} (h : w.Leads w') (hw : w.registry.WellKept) :
    w'.registry.WellKept := by
  induction h with
  | refl => exact hw
  | tail _ hm ih => exact hm.wellKept ih

/-! ## Growth -/

/-- `w'` keeps what `w` keeps, has issued at least as many numbers, and what is kept in addition
has a number that was issued in between. -/
structure Grown (w w' : Workshop) : Prop where
  nextId_le : w.journal.nextId ≤ w'.journal.nextId
  find?_eq : ∀ {kind order rule}, w.registry.find? kind order = some rule →
    w'.registry.find? kind order = some rule
  new : ∀ {kind order rule}, w'.registry.find? kind order = some rule →
    w.registry.find? kind order = some rule ∨
      w.journal.nextId ≤ rule.id ∧ rule.id < w'.journal.nextId

theorem Grown.refl (w : Workshop) : Grown w w := ⟨Nat.le_refl _, id, .inl⟩

theorem Grown.trans {w w' w'' : Workshop} (h : Grown w w') (h' : Grown w' w'') : Grown w w'' where
  nextId_le := Nat.le_trans h.nextId_le h'.nextId_le
  find?_eq hf := h'.find?_eq (h.find?_eq hf)
  new hf := by
    have hle := h.nextId_le
    have hle' := h'.nextId_le
    rcases h'.new hf with hf | ⟨hlo, hhi⟩
    · rcases h.new hf with hf | ⟨hlo, hhi⟩
      · exact .inl hf
      · exact .inr ⟨hlo, by omega⟩
    · exact .inr ⟨by omega, hhi⟩

theorem Move.grown {w w' : Workshop} (h : Move w w') : Grown w w' := by
  cases h with
  | report => exact ⟨Nat.le_refl _, id, .inl⟩
  | issue => exact ⟨Nat.le_succ _, id, .inl⟩
  | @add kind order rule hacc hfree hy =>
    refine ⟨Nat.le_succ _, fun {kind' order' rule'} hf => ?_, fun hf => ?_⟩
    · refine (Registry.find?_keep_of_ne _ _ fun he => ?_).trans hf
      obtain ⟨rfl, rfl⟩ := Prod.mk.inj he
      rw [hfree] at hf
      cases hf
    · rcases Registry.find?_keep_cases hf with ⟨-, -, rfl⟩ | hf
      · exact .inr ⟨Nat.le_refl _, Nat.lt_succ_self _⟩
      · exact .inl hf

theorem Leads.grown {w w' : Workshop} (h : w.Leads w') : Grown w w' := by
  induction h with
  | refl => exact .refl w
  | tail _ hm ih => exact ih.trans hm.grown

/-! ## Identity -/

/-- Kept rules have issued numbers, and no two keys keep the same rule. -/
structure Distinct (w : Workshop) : Prop where
  id_lt : ∀ {kind order rule}, w.registry.find? kind order = some rule →
    rule.id < w.journal.nextId
  key_eq : ∀ {kind order rule kind' order' rule'}, w.registry.find? kind order = some rule →
    w.registry.find? kind' order' = some rule' → rule.id = rule'.id →
      kind = kind' ∧ order = order'

theorem Move.distinct {w w' : Workshop} (h : Move w w') (hw : w.Distinct) : w'.Distinct := by
  cases h with
  | report => exact ⟨hw.id_lt, hw.key_eq⟩
  | issue => exact ⟨fun hf => Nat.lt_succ_of_lt (hw.id_lt hf), hw.key_eq⟩
  | @add kind order rule hacc hfree hy =>
    -- The new rule has the next number, and all others have smaller ones.
    have cases_find? : ∀ {kind' order' rule'},
        (w.add kind order rule).registry.find? kind' order' = some rule' →
          (kind' = kind ∧ order' = order ∧ rule'.id = w.journal.nextId) ∨
            (w.registry.find? kind' order' = some rule' ∧ rule'.id < w.journal.nextId) := by
      intro kind' order' rule' hf
      rcases Registry.find?_keep_cases hf with ⟨rfl, rfl, rfl⟩ | hf
      · exact .inl ⟨rfl, rfl, rfl⟩
      · exact .inr ⟨hf, hw.id_lt hf⟩
    have nextId_eq : (w.add kind order rule).journal.nextId = w.journal.nextId + 1 := rfl
    refine ⟨fun hf => ?_, fun hf hf' hid => ?_⟩
    · rcases cases_find? hf with ⟨-, -, hid⟩ | ⟨-, hlt⟩ <;> omega
    · rcases cases_find? hf with ⟨rfl, rfl, hid₁⟩ | ⟨hf₁, hlt₁⟩ <;>
        rcases cases_find? hf' with ⟨rfl, rfl, hid₂⟩ | ⟨hf₂, hlt₂⟩
      · exact ⟨rfl, rfl⟩
      · omega
      · omega
      · exact hw.key_eq hf₁ hf₂ hid

theorem Leads.distinct {w w' : Workshop} (h : w.Leads w') (hw : w.Distinct) : w'.Distinct := by
  induction h with
  | refl => exact hw
  | tail _ hm ih => exact hm.distinct ih

/-! ## Reports -/

/-- Moves add reports, and the keys that become kept are those reported as built. -/
theorem Leads.reports {w w' : Workshop} (h : w.Leads w') :
    ∃ events, w'.journal.log.toList = w.journal.log.toList ++ events ∧
      ∀ kind order, (w'.registry.find? kind order).isSome ↔
        (w.registry.find? kind order).isSome ∨
          (kind, order) ∈ events.filterMap Event.builtKey? := by
  induction h with
  | refl => exact ⟨[], by simp, by simp⟩
  | tail _ hm ih =>
    obtain ⟨events, hlog, hkeys⟩ := ih
    cases hm with
    | @report events' hnone =>
      refine ⟨events ++ events', ?_, fun kind order => ?_⟩
      · simp [reportAll, Journal.reportAll, hlog]
      · have : events'.filterMap Event.builtKey? = [] := List.filterMap_eq_nil_iff.mpr hnone
        rw [List.filterMap_append, this, List.append_nil]
        exact hkeys kind order
    | issue => exact ⟨events, hlog, hkeys⟩
    | @add kind order rule =>
      refine ⟨events ++ [.built kind order rule.npoints], ?_, fun kind' order' => ?_⟩
      · simp [add, report, issue, Journal.report, hlog]
      · simp only [add, Registry.find?_keep, List.filterMap_append, List.mem_append]
        split
        · rename_i he
          simp [he, Event.builtKey?]
        · rename_i he
          rw [hkeys]
          simp [he, Event.builtKey?]

end Workshop

end Cubature
