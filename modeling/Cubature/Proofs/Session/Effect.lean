import Cubature.Proofs.Side.Build
import Cubature.Session.Request

/-!
# What a request does to a session

`Session.Effect s target s'` lists all that one request can do to a session: nothing, a new
registry, a new catalog, a new number, moves on one registry, or moves on one registry followed by
a new side set in a catalog. `target` is the registry that the request works on
(`Session.target?`). Every request, answered or not, has such an effect (`Session.step_effect`), so
what holds at the start and is kept by every effect holds after every run
(`Session.after_induction`).
-/

namespace Cubature

namespace Session

/-- The registry that a request works on. A request for side sets works on the registry of its
catalog. -/
def target? (s : Session) : Request → Option RegistryId
  | .newRegistry _ | .arbitrary .. | .newCatalog _ => none
  | .rule id .. | .line id _ | .quadrilateral id _ | .triangle id _ | .hexahedron id _
  | .tetrahedron id _ | .ruleForElement id .. | .warmUp id .. | .sideRule (some id) _
  | .changeOrder (some id) .. => some id
  | .forStiffness .. | .forMass .. | .sideRule none _ | .changeOrder none .. => some globalRegistry
  | .sideSet c .. | .sideSetFor c .. => s.catalogs[c]?.map (·.registry)

/-- The journal after a side set was issued and reported. -/
def issueSet (name : String) (base : Shared FloatRule) (j : Journal) (set : SideSet) : Journal :=
  (j.issue set).2.report (.builtSides name set.numSides base.value.order)

/-- What a request can do to a session. -/
inductive Effect (s : Session) : Option RegistryId → Session → Prop where
  | idle (target : Option RegistryId) : Effect s target s
  | newRegistry {config : Config} (h : config = .standard ∨ config.validate = .ok ()) :
    Effect s none { s with registries := s.registries ++ [{ config }] }
  | newCatalog {id : RegistryId} (h : id < s.registries.length) :
    Effect s none { s with catalogs := s.catalogs ++ [{ registry := id }] }
  | issue :
    Effect s none { s with journal := { s.journal with nextId := s.journal.nextId + 1 } }
  | work {id : RegistryId} {r : Registry} {w : Workshop} (hr : s.registries[id]? = some r)
    (hw : Workshop.Leads ⟨r, s.journal⟩ w) :
    Effect s (some id)
      { s with registries := s.registries.set id w.registry, journal := w.journal }
  | newSet {c : CatalogId} {catalog : Catalog} {r : Registry} {w : Workshop}
    {t : Topology Float} {set : SideSet} (hc : s.catalogs[c]? = some catalog)
    (hr : s.registries[catalog.registry]? = some r)
    (hfree : catalog.find? set.topology set.base = none)
    (hw : Workshop.Leads ⟨r, s.journal⟩ w) (hset : set.Covers w.registry t) :
    Effect s (some catalog.registry)
      { registries := s.registries.set catalog.registry w.registry
        catalogs := s.catalogs.set c
          (catalog.keep set.topology set.base ⟨w.journal.nextId, set⟩)
        journal := issueSet set.topology set.base w.journal set }

/-! ## Runs -/

@[simp] theorem run_ofExcept {β : Type} (answer : Except Failure β) (s : Session) :
    (ofExcept answer).run s = (answer, s) := rfl

@[simp] theorem run_get (s : Session) : (get : Action Session).run s = (.ok s, s) := rfl

theorem run_registry (id : RegistryId) (s : Session) :
    (registry id).run s = match s.registries[id]? with
      | some r => (.ok r, s)
      | none => (.error .stray, s) := by
  unfold registry
  simp only [run_bind, run_get]
  cases s.registries[id]? <;> rfl

theorem run_catalog (id : CatalogId) (s : Session) :
    (catalog id).run s = match s.catalogs[id]? with
      | some c => (.ok c, s)
      | none => (.error .stray, s) := by
  unfold catalog
  simp only [run_bind, run_get]
  cases s.catalogs[id]? <;> rfl

/-- Work on a registry of the session takes the journal along and puts both back. -/
theorem run_within {β : Type} (id : RegistryId) (work : Work β) (s : Session) :
    (within id work).run s = match s.registries[id]? with
      | some r => ((work.run ⟨r, s.journal⟩).1,
          { s with registries := s.registries.set id (work.run ⟨r, s.journal⟩).2.registry,
                   journal := (work.run ⟨r, s.journal⟩).2.journal })
      | none => (.error .stray, s) := by
  unfold within
  rw [run_bind, run_registry]
  cases s.registries[id]? <;> rfl

theorem run_newRegistry (config : Option Config) (s : Session) :
    (newRegistry config).run s =
      match config.elim (.ok {}) Registry.withConfig with
      | .ok r => (.ok (s.registries.length, r.config), { s with registries := s.registries ++ [r] })
      | .error cause => (.error cause, s) := by
  unfold newRegistry
  rw [run_bind]
  cases config with
  | none => rfl
  | some config =>
    simp only [run_ofExcept, Option.elim_some]
    cases Registry.withConfig config <;> rfl

theorem run_newCatalog (id : RegistryId) (s : Session) :
    (newCatalog id).run s = match s.registries[id]? with
      | some _ => (.ok s.catalogs.length,
          { s with catalogs := s.catalogs ++ [{ registry := id }] })
      | none => (.error .stray, s) := by
  unfold newCatalog
  rw [run_bind, run_registry]
  cases s.registries[id]? <;> rfl

theorem run_arbitrary (dim npoints : Nat) (coords : List Float) (weights : Option (List Float))
    (s : Session) :
    (arbitrary dim npoints coords weights).run s =
      match Rule.arbitrary dim npoints coords weights with
      | .ok rule => (.ok ⟨s.journal.nextId, rule⟩,
          { s with journal := { s.journal with nextId := s.journal.nextId + 1 } })
      | .error cause => (.error cause, s) := by
  unfold arbitrary
  rw [run_bind, run_ofExcept]
  cases Rule.arbitrary dim npoints coords weights <;> rfl

/-- A rule that the global registry could keep but does not is refused, and nothing happens. -/
theorem run_requireGlobal (rule : Shared FloatRule) (s : Session) :
    (requireGlobal rule).run s = match s.registries[globalRegistry]? with
      | some r =>
        (if rule.value.kind ≠ .arbitrary ∧ ¬r.owns rule then
          .error (.rejected (.foreignRule rule.value.name rule.value.order)) else .ok (), s)
      | none => (.error .stray, s) := by
  unfold requireGlobal
  rw [run_bind, run_registry]
  cases s.registries[globalRegistry]? with
  | none => rfl
  | some r =>
    simp only
    split <;> rfl

/-- A kept side set is answered without any effect. Otherwise the set is built with the registry of
the catalog, and is kept if it was built. -/
theorem run_serveSideSet (id : CatalogId) (name : String) (t : Topology Float)
    (base : Shared FloatRule) (s : Session) :
    (serveSideSet id name t base).run s =
      match s.catalogs[id]? with
      | none => (.error .stray, s)
      | some c =>
        match s.registries[c.registry]? with
        | none => (.error .stray, s)
        | some r =>
          match c.find? name base with
          | some set => (.ok set, s)
          | none =>
            match (buildSideSet name t base).run ⟨r, s.journal⟩ with
            | (.ok set, w) =>
              (.ok ⟨w.journal.nextId, set⟩,
                { registries := s.registries.set c.registry w.registry
                  catalogs := s.catalogs.set id (c.keep name base ⟨w.journal.nextId, set⟩)
                  journal := issueSet name base w.journal set })
            | (.error cause, w) =>
              (.error cause,
                { s with registries := s.registries.set c.registry w.registry
                         journal := w.journal }) := by
  unfold serveSideSet
  rw [run_bind, run_catalog]
  cases hc : s.catalogs[id]? with
  | none => rfl
  | some c =>
    simp only [run_bind, run_within]
    cases hr : s.registries[c.registry]? with
    | none => rfl
    | some r =>
      simp only [Catalog.run_serve]
      cases c.find? name base with
      | some set =>
        -- The catalog and the registry are put back as they were.
        obtain ⟨hi, rfl⟩ := List.getElem?_eq_some_iff.mp hc
        obtain ⟨hj, rfl⟩ := List.getElem?_eq_some_iff.mp hr
        show (Except.ok set, _) = (Except.ok set, s)
        simp
      | none =>
        simp only
        generalize (buildSideSet name t base).run ⟨r, s.journal⟩ = out
        obtain ⟨_ | set, w⟩ := out <;> rfl

/-! ## Effects -/

theorem effect_within {β : Type} {work : Work β} (h : work.Moves) (id : RegistryId) (s : Session) :
    s.Effect (some id) ((within id work).run s).2 := by
  rw [run_within]
  split
  · rename_i r hr
    exact .work hr (h _)
  · exact .idle _

theorem effect_newRegistry (config : Option Config) (s : Session) :
    s.Effect none ((newRegistry config).run s).2 := by
  rw [run_newRegistry]
  split
  · rename_i r hr
    cases config with
    | none =>
      cases hr
      exact .newRegistry (.inl rfl)
    | some config =>
      simp only [Option.elim_some, Registry.withConfig] at hr
      cases hv : config.validate with
      | error => rw [hv] at hr; cases hr
      | ok =>
        rw [hv] at hr
        cases hr
        exact .newRegistry (.inr hv)
  · exact .idle _

theorem effect_newCatalog (id : RegistryId) (s : Session) :
    s.Effect none ((newCatalog id).run s).2 := by
  rw [run_newCatalog]
  split
  · rename_i r hr
    exact .newCatalog (List.getElem?_eq_some_iff.mp hr).1
  · exact .idle _

theorem effect_arbitrary (dim npoints : Nat) (coords : List Float) (weights : Option (List Float))
    (s : Session) : s.Effect none ((arbitrary dim npoints coords weights).run s).2 := by
  rw [run_arbitrary]
  split
  · exact .issue
  · exact .idle _

theorem effect_forMass (kind : Kind) (degree : Nat) (s : Session) :
    s.Effect (some globalRegistry) ((forMass kind degree).run s).2 := by
  unfold forMass
  rw [run_bind, run_ofExcept]
  cases orderForMass degree with
  | error => exact .idle _
  | ok order => exact effect_within (Registry.moves_rule kind order) _ s

/-- Work on the global registry that is only done for a rule of the global registry. -/
theorem effect_requireGlobal {β : Type} {work : Work β} (h : work.Moves) (rule : Shared FloatRule)
    (s : Session) :
    s.Effect (some globalRegistry)
      ((requireGlobal rule >>= fun _ => within globalRegistry work).run s).2 := by
  rw [run_bind, run_requireGlobal]
  cases s.registries[globalRegistry]? with
  | none => exact .idle _
  | some r =>
    by_cases hown : rule.value.kind ≠ .arbitrary ∧ ¬r.owns rule
    · simp only [if_pos hown]
      exact .idle _
    · simp only [if_neg hown]
      exact effect_within h _ s

theorem effect_serveSideSet (id : CatalogId) (name : String) (t : Topology Float)
    (base : Shared FloatRule) (s : Session) :
    s.Effect (s.catalogs[id]?.map (·.registry)) ((serveSideSet id name t base).run s).2 := by
  rw [run_serveSideSet]
  cases hc : s.catalogs[id]? with
  | none => exact .idle _
  | some c =>
    simp only [Option.map_some]
    cases hr : s.registries[c.registry]? with
    | none => exact .idle _
    | some r =>
      simp only
      cases hfree : c.find? name base with
      | some set => exact .idle _
      | none =>
        have hw := moves_buildSideSet name t base ⟨r, s.journal⟩
        generalize hrun : (buildSideSet name t base).run ⟨r, s.journal⟩ = out at hw
        obtain ⟨_ | set, w⟩ := out
        · exact .work hr hw
        · obtain ⟨rfl, rfl, hset⟩ := buildSideSet_ok hrun
          exact .newSet hc hr hfree hw hset

theorem effect_sideSet (id : CatalogId) (name : String) (base : Shared FloatRule) (s : Session) :
    s.Effect (s.catalogs[id]?.map (·.registry)) ((sideSet id name base).run s).2 := by
  unfold sideSet
  rw [run_bind, run_ofExcept]
  cases ReferenceElement.ofName name with
  | error => exact .idle _
  | ok e => exact effect_serveSideSet id name e.topology base s

/-- Every request, answered or not, has one of the effects on the registry that it works on. -/
theorem step_effect (s : Session) (request : Request) :
    s.Effect (s.target? request) (s.step request).2 := by
  unfold step
  cases request with
  | newRegistry config =>
    have h := effect_newRegistry config s
    -- The answer is made from the place and the limits, and does not touch the session again.
    simp only [Request.perform, run_bind]
    generalize (newRegistry config).run s = out at h
    obtain ⟨_ | ⟨id, config⟩, s'⟩ := out <;> exact h
  | newCatalog registry =>
    simp only [Request.perform, run_map]
    exact effect_newCatalog registry s
  | arbitrary dim npoints coords weights =>
    simp only [Request.perform, run_map]
    exact effect_arbitrary dim npoints coords weights s
  | rule registry kind order =>
    simp only [Request.perform, run_map]
    exact effect_within (Registry.moves_rule kind order) registry s
  -- The requests that are named for a kind are the request for that kind.
  | line registry order | quadrilateral registry order | triangle registry order
  | hexahedron registry order | tetrahedron registry order =>
    simp only [Request.perform, run_map]
    exact effect_within (Registry.moves_rule _ order) registry s
  | ruleForElement registry name order =>
    simp only [Request.perform, run_map]
    exact effect_within (Registry.moves_ruleForElement name order) registry s
  | forStiffness kind degree =>
    simp only [Request.perform, run_map]
    exact effect_within (Registry.moves_rule kind _) globalRegistry s
  | forMass kind degree =>
    simp only [Request.perform, run_map]
    exact effect_forMass kind degree s
  | sideRule registry rule =>
    cases registry with
    | some registry =>
      simp only [Request.perform, run_map]
      exact effect_within (Registry.moves_sideRule rule.value) registry s
    -- A rule that is asked by itself is refused or asks the global registry.
    | none =>
      simp only [Request.perform, run_map]
      exact effect_requireGlobal (Registry.moves_sideRule rule.value) rule s
  | changeOrder registry rule order =>
    cases registry with
    | some registry =>
      simp only [Request.perform, run_map]
      exact effect_within (Registry.moves_changeOrder rule.value order) registry s
    | none =>
      simp only [Request.perform, run_map]
      exact effect_requireGlobal (Registry.moves_changeOrder rule.value order) rule s
  | warmUp registry kinds orders =>
    have h := effect_within (Registry.moves_warmUp kinds orders) registry s
    -- What was kept before a failure stays, so both outcomes leave what the work left.
    simp only [Request.perform, run_bind]
    generalize (within registry (Registry.warmUp kinds orders)).run s = out at h
    obtain ⟨_ | _, s'⟩ := out <;> exact h
  | sideSet catalog name base =>
    simp only [Request.perform, run_map]
    exact effect_sideSet catalog name base s
  | sideSetFor catalog topology base =>
    simp only [Request.perform, run_map]
    exact effect_serveSideSet catalog topology.name topology base s

/-- The effect of a request whose outcome is known. -/
theorem effect_of_step {s s' : Session} {request : Request} {answer : Except Failure Answer}
    (h : s.step request = (answer, s')) : s.Effect (s.target? request) s' := by
  have heffect := s.step_effect request
  rwa [h] at heffect

theorem after_append (s : Session) (requests requests' : List Request) :
    s.after (requests ++ requests') = (s.after requests).after requests' := List.foldl_append

/-- A run through a request. -/
theorem after_append_cons (s : Session) (requests later : List Request) (request : Request) :
    s.after (requests ++ request :: later) = ((s.after requests).step request).2.after later :=
  after_append ..

/-- What every effect keeps is kept by every run. -/
theorem after_induction {P : Session → Prop} {s : Session} (h : P s)
    (keep : ∀ {s s' : Session} {target : Option RegistryId}, P s → s.Effect target s' → P s')
    (requests : List Request) : P (s.after requests) := by
  unfold after
  induction requests generalizing s with
  | nil => exact h
  | cons request requests ih => exact ih (keep h (s.step_effect request))

/-- What comes about by requests of one sort holds after a run if it held before, or if the run has
a request of that sort. -/
theorem after_iff {P : Session → Prop} {Q : Session → Request → Prop}
    (hstep : ∀ s request, P (s.step request).2 ↔ P s ∨ Q s request) (s : Session)
    (requests : List Request) : P (s.after requests) ↔ P s ∨
      ∃ before request later, requests = before ++ request :: later ∧
        Q (s.after before) request := by
  induction requests generalizing s with
  | nil => simp [after]
  | cons request requests ih =>
    show P ((s.step request).2.after requests) ↔ _
    rw [ih, hstep, or_assoc]
    refine or_congr_right ⟨?_, ?_⟩
    · rintro (h | ⟨before, request', later, rfl, h⟩)
      · exact ⟨[], request, requests, rfl, h⟩
      · exact ⟨request :: before, request', later, rfl, h⟩
    · rintro ⟨_ | ⟨request'', before⟩, request', later, heq, h⟩
      · obtain ⟨rfl, rfl⟩ := List.cons.inj heq
        exact .inl h
      · obtain ⟨rfl, rfl⟩ := List.cons.inj heq
        exact .inr ⟨before, request', later, rfl, h⟩

end Session

end Cubature
