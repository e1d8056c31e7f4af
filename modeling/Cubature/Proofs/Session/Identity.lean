import Cubature.Proofs.Session.Queries

/-!
# One rule for each key

A rule can be obtained in many ways (`Session.Obtains`): by a request that stands for a registry, a
kind and an order (`Request.ruleKey?`), by looking it up, and as the rule on a side of a side set.
Each of them answers with the rule that the registry keeps (`Obtains.holds`), so over a whole run a
registry has one rule for each kind and order.

The main statement is `rules_of_run`.
-/

namespace Cubature

/-- The registry, the kind and the order that a request for a rule stands for. -/
def Request.ruleKey? : Request → Option (RegistryId × Kind × Nat)
  | .rule id kind order => some (id, kind, order)
  | .line id order => some (id, .line, order)
  | .quadrilateral id order => some (id, .quadrilateral, order)
  | .triangle id order => some (id, .triangle, order)
  | .hexahedron id order => some (id, .hexahedron, order)
  | .tetrahedron id order => some (id, .tetrahedron, order)
  | .ruleForElement id name order =>
    (ReferenceElement.ofName? name).map fun e => (id, e.kind, order)
  | .forStiffness kind degree =>
    some (Session.globalRegistry, kind, orderForStiffness degree)
  | .forMass kind degree => some (Session.globalRegistry, kind, degree + 1)
  | .sideRule id r =>
    r.value.kind.sideKind?.map fun kind => (id.getD Session.globalRegistry, kind, r.value.order)
  | .changeOrder id r order => some (id.getD Session.globalRegistry, r.value.kind, order)
  | _ => none

namespace Registry

theorem ruleForElement_eq {name : String} {e : ReferenceElement}
    (h : ReferenceElement.ofName? name = some e) (order : Nat) :
    ruleForElement name order = rule e.kind order := by
  unfold ruleForElement Kind.ofElement ReferenceElement.ofName
  rw [h]
  rfl

theorem sideRule_eq {r : FloatRule} {kind : Kind} (h : r.kind.sideKind? = some kind) :
    sideRule r = rule kind r.order := by
  unfold sideRule
  rw [h]

theorem sideRule_of_none {r : FloatRule} (h : r.kind.sideKind? = none) :
    sideRule r = Work.ofExcept (.error (.rejected (.unsupported "side_rule" r.name))) := by
  unfold sideRule
  rw [h]

theorem find?_of_changeOrder {r : FloatRule} {order : Nat} {w w' : Workshop}
    {rule : Shared FloatRule} (h : (changeOrder r order).run w = (.ok rule, w')) :
    w'.registry.find? r.kind order = some rule := by
  unfold changeOrder at h
  split at h
  · cases h
  · exact find?_of_rule h

end Registry

namespace Session

variable {s s' : Session} {id : RegistryId} {kind : Kind} {order : Nat}
  {rule : Shared FloatRule} {request : Request}

/-- Work on a registry that is answered. -/
theorem within_ok {β : Type} {work : Work β} {b : β} (h : (within id work).run s = (.ok b, s')) :
    ∃ r w, s.registries[id]? = some r ∧ work.run ⟨r, s.journal⟩ = (.ok b, w) ∧
      s' = { s with registries := s.registries.set id w.registry, journal := w.journal } := by
  rw [run_within] at h
  split at h
  · rename_i r hr
    generalize hrun : work.run ⟨r, s.journal⟩ = out at h
    obtain ⟨_ | _, w⟩ := out <;> cases h
    exact ⟨r, w, hr, hrun, rfl⟩
  · cases h

/-- Work that answers with what the registry keeps answers with what the session keeps. -/
theorem holds_of_within {work : Work (Shared FloatRule)}
    (hwork : ∀ {w w' : Workshop} {rule : Shared FloatRule}, work.run w = (.ok rule, w') →
      w'.registry.find? kind order = some rule)
    (h : (within id work).run s = (.ok rule, s')) : s'.Holds id kind order rule := by
  obtain ⟨r, w, hr, hrun, rfl⟩ := within_ok h
  exact ⟨w.registry, List.getElem?_set_self (List.getElem?_eq_some_iff.mp hr).1, hwork hrun⟩

theorem holds_of_requireGlobal {work : Work (Shared FloatRule)} {base : Shared FloatRule}
    (hwork : ∀ {w w' : Workshop} {rule : Shared FloatRule}, work.run w = (.ok rule, w') →
      w'.registry.find? kind order = some rule)
    (h : (requireGlobal base >>= fun _ => within globalRegistry work).run s = (.ok rule, s')) :
    s'.Holds globalRegistry kind order rule := by
  obtain ⟨_, s₁, -, h₁⟩ := bind_ok h
  exact holds_of_within hwork h₁

/-- An answer that is a rule is the rule that was answered. -/
theorem rule_map_ok {x : Action (Shared FloatRule)}
    (h : (Answer.rule <$> x).run s = (.ok (.rule rule), s')) : x.run s = (.ok rule, s') := by
  obtain ⟨_, hx, hrule⟩ := map_ok h
  cases hrule
  exact hx

/-- A request for a rule is answered with the rule that is kept under its key. -/
theorem holds_of_step (hkey : request.ruleKey? = some (id, kind, order))
    (h : s.step request = (.ok (.rule rule), s')) : s'.Holds id kind order rule := by
  cases request with
  | rule | line | quadrilateral | triangle | hexahedron | tetrahedron | forStiffness =>
    cases hkey
    exact holds_of_within Registry.find?_of_rule (rule_map_ok h)
  | ruleForElement registry name order' =>
    obtain ⟨e, he, hkey⟩ := Option.map_eq_some_iff.mp hkey
    cases hkey
    have h := rule_map_ok h
    rw [Registry.ruleForElement_eq he] at h
    exact holds_of_within Registry.find?_of_rule h
  | forMass kind' degree =>
    cases hkey
    -- The order is a word, or nothing would have been answered.
    obtain ⟨order', s₁, hsize, h₁⟩ := bind_ok (rule_map_ok h)
    obtain ⟨horder, rfl⟩ := Prod.mk.inj hsize
    obtain rfl : order' = degree + 1 := by
      simp only [orderForMass, Size.word] at horder
      split at horder <;> cases horder
      rfl
    exact holds_of_within Registry.find?_of_rule h₁
  | sideRule registry r =>
    obtain ⟨kind', hkind, hkey⟩ := Option.map_eq_some_iff.mp hkey
    cases hkey
    cases registry with
    | some registry =>
      have h := rule_map_ok h
      rw [Registry.sideRule_eq hkind] at h
      exact holds_of_within Registry.find?_of_rule h
    | none =>
      have h := rule_map_ok h
      rw [sideRule, Registry.sideRule_eq hkind] at h
      exact holds_of_requireGlobal Registry.find?_of_rule h
  | changeOrder registry r order' =>
    cases hkey
    cases registry with
    | some registry => exact holds_of_within Registry.find?_of_changeOrder (rule_map_ok h)
    | none => exact holds_of_requireGlobal Registry.find?_of_changeOrder (rule_map_ok h)
  -- Other requests stand for no key.
  | _ => cases hkey

/-! ## Ways to obtain a rule -/

/-- A rule is obtained from the registry `id` for a kind and an order: by a request that stands for
them, by looking it up, on a side of a new side set whose shape has that kind, or on a side of any
side set. -/
inductive Obtains (s : Session) : RegistryId → Kind → Nat → Shared FloatRule → Session → Prop where
  | request {request : Request} {id : RegistryId} {kind : Kind} {order : Nat}
    {rule : Shared FloatRule} {s' : Session} (hkey : request.ruleKey? = some (id, kind, order))
    (h : s.step request = (.ok (.rule rule), s')) : Obtains s id kind order rule s'
  | lookUp {id : RegistryId} {r : Registry} {kind : Kind} {order : Nat} {rule : Shared FloatRule}
    (hr : s.registries[id]? = some r) (h : r.get? kind order = .ok (some rule)) :
    Obtains s id kind order rule s
  | newSide {q : SideQuery} {t : Topology Float} {set : Shared SideSet} {catalog : Catalog}
    {i : Nat} {shape : String} {kind : Kind} {rule : Shared FloatRule} {s' : Session}
    (h : s.Answers q set s') (hnew : ¬s.FilesKey q.catalog q.key) (ht : q.topology = .ok t)
    (hc : s'.catalogs[q.catalog]? = some catalog) (hshape : t.sideShape? i = some shape)
    (hkind : Kind.ofElement shape = .ok kind) (hrule : set.value.sideRule i = .ok rule) :
    Obtains s catalog.registry kind q.base.value.order rule s'
  | side {q : SideQuery} {set : Shared SideSet} {catalog : Catalog} {i : Nat}
    {rule : Shared FloatRule} {s' : Session} (h : s.Answers q set s')
    (hc : s'.catalogs[q.catalog]? = some catalog) (hrule : set.value.sideRule i = .ok rule) :
    Obtains s catalog.registry rule.value.kind rule.value.order rule s'

theorem get?_ok {r : Registry} (h : r.get? kind order = .ok (some rule)) :
    r.find? kind order = some rule := by
  unfold Registry.get? at h
  cases hreq : Registry.requireCached kind with
  | error => rw [hreq] at h; cases h
  | ok =>
    rw [hreq] at h
    exact Except.ok.inj h

theorem sideRule_ok {set : SideSet} {i : Nat} (h : set.sideRule i = .ok rule) :
    ∃ side, set.sides[i]? = some side ∧ side.rule = rule := by
  unfold SideSet.sideRule SideSet.side at h
  cases hside : set.sides[i]? with
  | none => rw [hside] at h; cases h
  | some side =>
    rw [hside] at h
    exact ⟨side, rfl, Except.ok.inj h⟩

/-- On a side of a new set, the registry keeps the rule of the kind of the side's shape. -/
theorem Answers.holds_new {q : SideQuery} {t : Topology Float} {set : Shared SideSet}
    {catalog : Catalog} {i : Nat} {shape : String} (h : s.Answers q set s')
    (hnew : ¬s.FilesKey q.catalog q.key) (ht : q.topology = .ok t)
    (hc : s'.catalogs[q.catalog]? = some catalog) (hshape : t.sideShape? i = some shape)
    (hkind : Kind.ofElement shape = .ok kind) (hrule : set.value.sideRule i = .ok rule) :
    s'.Holds catalog.registry kind q.base.value.order rule := by
  obtain ⟨t', ht', hserve⟩ := h.serve
  obtain rfl := Except.ok.inj (ht.symm.trans ht')
  obtain ⟨catalog₀, r, w, hc₀, hr, hbuild, hcats, hregs, -⟩ := serve_of_not_files hnew hserve
  obtain ⟨-, hbase, hset⟩ := buildSideSet_ok hbuild
  obtain rfl : catalog₀.keep q.name q.base set = catalog := by
    rw [hcats, List.getElem?_set_self (List.getElem?_eq_some_iff.mp hc₀).1] at hc
    exact Option.some.inj hc
  obtain ⟨side, hside, rfl⟩ := sideRule_ok hrule
  obtain ⟨shape', kind', hshape', hkind', hfind⟩ := (hset.side hside).rule
  obtain rfl := Option.some.inj (hshape.symm.trans hshape')
  obtain rfl := Except.ok.inj (hkind.symm.trans hkind')
  rw [hbase] at hfind
  refine ⟨w.registry, ?_, hfind⟩
  rw [hregs]
  exact List.getElem?_set_self (List.getElem?_eq_some_iff.mp hr).1

/-- On a side of any set, the registry keeps the rule under its own kind and order. -/
theorem Answers.holds {q : SideQuery} {set : Shared SideSet} {catalog : Catalog} {i : Nat}
    (h : s.Answers q set s') (hs : s'.Filed) (hw : s'.WellKept)
    (hc : s'.catalogs[q.catalog]? = some catalog) (hrule : set.value.sideRule i = .ok rule) :
    s'.Holds catalog.registry rule.value.kind rule.value.order rule := by
  obtain ⟨id, hf⟩ := h.files
  obtain ⟨r, t, hr, hset⟩ := hs.covers hf
  obtain ⟨catalog', hc', rfl, -⟩ := hf
  obtain rfl := Option.some.inj (hc'.symm.trans hc)
  obtain ⟨side, hside, rfl⟩ := sideRule_ok hrule
  obtain ⟨shape, kind, -, -, hfind⟩ := (hset.side hside).rule
  have hfits := (hw _ r hr).fits hfind
  rw [hfits.kind_eq, hfits.order_eq]
  exact ⟨r, hr, hfind⟩

/-- The rule that is obtained is the one that the registry keeps. -/
theorem Obtains.holds (h : s.Obtains id kind order rule s') (hs : s'.Filed) (hw : s'.WellKept) :
    s'.Holds id kind order rule := by
  cases h with
  | request hkey h => exact holds_of_step hkey h
  | lookUp hr h => exact ⟨_, hr, get?_ok h⟩
  | newSide h hnew ht hc hshape hkind hrule => exact h.holds_new hnew ht hc hshape hkind hrule
  | side h hc hrule => exact h.holds hs hw hc hrule

/-! ## Runs -/

/-- What every reachable session has. -/
structure Sound (s : Session) : Prop where
  wellKept : s.WellKept
  distinct : s.Distinct
  filed : s.Filed

theorem Effect.sound {target : Option RegistryId} (h : s.Effect target s') (hs : s.Sound) :
    s'.Sound :=
  ⟨h.wellKept hs.wellKept, h.distinct hs.distinct, h.filed hs.filed⟩

theorem Sound.after (hs : s.Sound) (requests : List Request) : (s.after requests).Sound :=
  after_induction hs (fun hs h => h.sound hs) requests

theorem sound_start : ({} : Session).Sound := ⟨wellKept_start, distinct_start, filed_start⟩

/-- To obtain a rule takes at most one request. -/
theorem Obtains.eq_after (h : s.Obtains id kind order rule s') :
    ∃ requests, s.after requests = s' := by
  cases h with
  | @request request _ _ _ _ _ _ h => exact ⟨[request], congrArg Prod.snd h⟩
  | lookUp => exact ⟨[], rfl⟩
  | newSide h | side h =>
    obtain ⟨request, -, hstep⟩ := h
    exact ⟨[request], congrArg Prod.snd hstep⟩

theorem holds_after (hf : s.Holds id kind order rule) (requests : List Request) :
    (s.after requests).Holds id kind order rule :=
  after_induction hf (fun hf h => h.holds hf) requests

/-- Two rules obtained in a run are the same exactly if registry, kind and order are the same. -/
theorem Obtains.same_iff {s₁ s₂ : Session} {id' : RegistryId} {kind' : Kind} {order' : Nat}
    {rule' : Shared FloatRule} {between : List Request} (hs : s.Sound)
    (h : s.Obtains id kind order rule s₁)
    (h' : (s₁.after between).Obtains id' kind' order' rule' s₂) :
    (id' = id ∧ kind' = kind ∧ order' = order → rule' = rule) ∧
      (rule'.isSame rule → id' = id ∧ kind' = kind ∧ order' = order) := by
  obtain ⟨requests, rfl⟩ := h.eq_after
  obtain ⟨requests', rfl⟩ := h'.eq_after
  have hs₁ := hs.after requests
  have hs₂ := (hs₁.after between).after requests'
  have hf' := h'.holds hs₂.filed hs₂.wellKept
  -- The first rule is still kept when the second is obtained.
  have hf := holds_after (holds_after (h.holds hs₁.filed hs₁.wellKept) between) requests'
  constructor
  · rintro ⟨rfl, rfl, rfl⟩
    exact hf'.unique hf
  · intro hsame
    exact hs₂.distinct.key_eq hf' hf (by simpa [Shared.isSame] using hsame)

/-- No rule is kept under the kind of arbitrary rules. -/
theorem find?_arbitrary {r : Registry} (hr : r.WellKept) (order : Nat) :
    r.find? .arbitrary order = none := by
  rw [Option.eq_none_iff_forall_not_mem]
  intro rule hf
  have := (hr.fits hf).dim_eq
  cases this

theorem get?_iff {r : Registry} (hr : r.WellKept) (kind : Kind) (order : Nat) :
    (∃ rule, r.get? kind order = .ok (some rule)) ↔ (r.find? kind order).isSome := by
  unfold Registry.get? Registry.requireCached
  by_cases hk : kind = .arbitrary
  · subst hk
    simp [find?_arbitrary hr, Except.map]
  · simp [hk, Except.map, Option.isSome_iff_exists]

theorem contains_iff {r : Registry} (hr : r.WellKept) (kind : Kind) (order : Nat) :
    r.contains kind order = .ok true ↔ (r.find? kind order).isSome := by
  unfold Registry.contains Registry.requireCached
  by_cases hk : kind = .arbitrary
  · subst hk
    simp [find?_arbitrary hr, Except.map]
  · simp [hk, Except.map]

theorem not_keeps_start : ¬({} : Session).Keeps id kind order := by
  rintro ⟨rule, r, hr, hf⟩
  cases id with
  | zero =>
    cases hr
    cases hf
  | succ => cases hr

/-- A registry has a rule for a kind and an order if a request to it built one. -/
theorem find?_isSome_after {requests : List Request} {r : Registry}
    (hr : (({} : Session).after requests).registries[id]? = some r) :
    (r.find? kind order).isSome ↔ ∃ before request later, requests = before ++ request :: later ∧
      (({} : Session).after before).Builds request id kind order := by
  rw [← keeps_iff hr, keeps_after]
  exact or_iff_right not_keeps_start

/-- Rules over every run.

* A rule that is obtained for a kind and an order has them, and every rule that is obtained later
  is the same rule if registry, kind and order are the same, and another one otherwise.
* No request removes or replaces a rule that is kept.
* A rule is looked up successfully exactly if the registry says that it has it, and exactly if an
  earlier request to the registry built it. -/
theorem rules_of_run (requests : List Request) :
    (∀ {id : RegistryId} {kind : Kind} {order : Nat} {rule : Shared FloatRule} {s₁ : Session},
      (({} : Session).after requests).Obtains id kind order rule s₁ →
        (rule.value.kind = kind ∧ rule.value.order = order) ∧
        ∀ {between : List Request} {id' : RegistryId} {kind' : Kind} {order' : Nat}
          {rule' : Shared FloatRule} {s₂ : Session},
          (s₁.after between).Obtains id' kind' order' rule' s₂ →
            (id' = id ∧ kind' = kind ∧ order' = order → rule' = rule) ∧
            (rule'.isSame rule → id' = id ∧ kind' = kind ∧ order' = order)) ∧
    (∀ {request : Request} {id : RegistryId} {kind : Kind} {order : Nat} {rule : Shared FloatRule},
      (({} : Session).after requests).Holds id kind order rule →
        ((({} : Session).after requests).step request).2.Holds id kind order rule) ∧
    ∀ {id : RegistryId} {r : Registry} (kind : Kind) (order : Nat),
      (({} : Session).after requests).registries[id]? = some r →
        ((∃ rule, r.get? kind order = .ok (some rule)) ↔ r.contains kind order = .ok true) ∧
        (r.contains kind order = .ok true ↔
          ∃ before request later, requests = before ++ request :: later ∧
            (({} : Session).after before).Builds request id kind order) := by
  have hs := sound_start.after requests
  refine ⟨fun h => ⟨?_, h.same_iff hs⟩, fun hf => (step_effect _ _).holds hf, ?_⟩
  · obtain ⟨requests', rfl⟩ := h.eq_after
    have hs₁ := hs.after requests'
    obtain ⟨r, hr, hf⟩ := h.holds hs₁.filed hs₁.wellKept
    have hfits := (hs₁.wellKept _ r hr).fits hf
    exact ⟨hfits.kind_eq, hfits.order_eq⟩
  · intro id r kind order hr
    have hkept := hs.wellKept _ r hr
    rw [get?_iff hkept, contains_iff hkept]
    exact ⟨Iff.rfl, find?_isSome_after hr⟩

/-- A square rule and the rule for a shell of the same order are one, with a refused request and
other rules in between. -/
theorem rules_of_shell_run :
    ∃ (rule rule' : Shared FloatRule) (s₁ s₂ : Session),
      (({} : Session).after [.hexahedron 0 2]).Obtains 0 .quadrilateral 2 rule s₁ ∧
      (s₁.after [.line 0 0, .triangle 0 2]).Obtains 0 .quadrilateral 2 rule' s₂ ∧
      rule.value.order = 2 ∧ rule' = rule := by
  obtain ⟨rule, rule', s₁, s₂, h, h'⟩ : ∃ (rule rule' : Shared FloatRule) (s₁ s₂ : Session),
      (({} : Session).after [.hexahedron 0 2]).Obtains 0 .quadrilateral 2 rule s₁ ∧
      (s₁.after [.line 0 0, .triangle 0 2]).Obtains 0 .quadrilateral 2 rule' s₂ :=
    ⟨_, _, _, _, @Obtains.request _ (.quadrilateral 0 2) _ _ _ _ _ rfl rfl,
      @Obtains.request _ (.ruleForElement 0 "SHELL4" 2) _ _ _ _ _ rfl rfl⟩
  obtain ⟨⟨-, horder⟩, hsame⟩ := (rules_of_run [.hexahedron 0 2]).1 h
  exact ⟨rule, rule', s₁, s₂, h, h', horder, (hsame h').1 ⟨rfl, rfl, rfl⟩⟩

end Session

end Cubature
