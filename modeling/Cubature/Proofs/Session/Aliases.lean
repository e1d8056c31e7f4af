import Cubature.Proofs.Session.SideRules
import Cubature.Proofs.Side.Verdict

/-!
# Names of one element

The names of a reference element can be used for one another, at any points of a run.

* `Session.step_rule_again`: a request for a rule ends the same whenever it is made.
* `Faithful.sideSet_outcome`: what a request for a side set ends with is decided by the element, the
  order of the base rule and the limits of the registry, whether the set is built or was built
  before.

The main statement is `aliases_of_run`. As in `Session.sideRules_of_run`, the catalog was given no
other topology under a name of a reference element.
-/

namespace Cubature

/-- Two sets have as many sides, on each of which they have the same side rule and parent rules of
the same contents. -/
def SideSet.Alike (set set' : SideSet) : Prop :=
  set'.numSides = set.numSides ∧ ∀ i < set.numSides, ∃ rule parent parent',
    set.sideRule i = .ok rule ∧ set'.sideRule i = .ok rule ∧
      set.parentRule i = .ok parent ∧ set'.parentRule i = .ok parent' ∧
        parent'.value = parent.value

/-- Sets that cover the same topology at the same order with rules of one registry are alike. -/
theorem SideSet.Covers.alike {set set' : SideSet} {r : Registry} {t : Topology Float}
    (h : set.Covers r t) (h' : set'.Covers r t)
    (horder : set'.base.value.order = set.base.value.order) : set.Alike set' := by
  have hnum : set'.numSides = set.numSides := h'.numSides_eq.trans h.numSides_eq.symm
  refine ⟨hnum, fun i hi => ?_⟩
  obtain ⟨side, hside, hrule, hparent⟩ := exists_side hi
  obtain ⟨side', hside', hrule', hparent'⟩ := exists_side (hnum ▸ hi)
  obtain ⟨shape, kind, hshape, hkind, hfind⟩ := (h.side hside).rule
  obtain ⟨shape', kind', hshape', hkind', hfind'⟩ := (h'.side hside').rule
  obtain rfl := Option.some.inj (hshape.symm.trans hshape')
  obtain rfl := Except.ok.inj (hkind.symm.trans hkind')
  rw [horder, hfind] at hfind'
  have hsame : side'.rule = side.rule := (Option.some.inj hfind').symm
  refine ⟨side.rule, side.parent, side'.parent, hrule, hsame ▸ hrule', hparent, hparent', ?_⟩
  have hcarried := (h'.side hside').parent
  rw [hsame, (h.side hside).parent] at hcarried
  exact (Except.ok.inj hcarried).symm

namespace Session

variable {s s' : Session} {id : RegistryId} {r : Registry} {kind : Kind} {order : Nat}
  {requests : List Request} {e : ReferenceElement} {name a b : String} {c : CatalogId}
  {target : Option RegistryId} {catalog : Catalog} {config : Config} {base : Shared FloatRule}
  {set : Shared SideSet}

/-- Every registry keeps what its limits call for. -/
def Settled (s : Session) : Prop := s.Everywhere fun r => r.Settled r.config

theorem Effect.settled (h : s.Effect target s') (hs : s.Settled) : s'.Settled :=
  h.everywhere Registry.settled_empty (fun h hw => by rw [h.config_eq]; exact h.settled hw) hs

theorem Settled.after (hs : s.Settled) (requests : List Request) : (s.after requests).Settled :=
  after_induction hs (fun hs h => h.settled hs) requests

theorem settled_start : ({} : Session).Settled := everywhere_start Registry.settled_empty

/-! ## Rules -/

theorem step_ruleForElement (hname : name ∈ e.names) (s : Session) (id : RegistryId)
    (order : Nat) : s.step (.ruleForElement id name order) = s.step (.rule id e.kind order) := by
  simp only [step, Request.perform,
    Registry.ruleForElement_eq (ReferenceElement.ofName?_eq_some_iff.mpr hname)]

/-- A request for a rule ends as the registry's verdict says. -/
theorem step_rule_verdict (kind : Kind) (order : Nat) (hs : s.Settled)
    (hr : s.registries[id]? = some r) :
    (∃ cause, Registry.verdict r.config kind order = .error cause ∧
      (s.step (.rule id kind order)).1 = .error cause) ∨
    ∃ rule, Registry.verdict r.config kind order = .ok rule.value ∧
      (s.step (.rule id kind order)).1 = .ok (.rule rule) := by
  have hout := Registry.gives_rule r.config kind order ⟨r, s.journal⟩ (hs id r hr)
  rw [step, Request.perform, run_map, run_within, hr]
  simp only
  generalize (Registry.rule kind order).run ⟨r, s.journal⟩ = out at hout
  obtain ⟨cause | rule, w⟩ := out
  · exact .inl ⟨cause, hout.symm, rfl⟩
  · exact .inr ⟨rule, hout.symm, rfl⟩

/-- A request for a rule that is made again ends with the same answer or the same failure. -/
theorem step_rule_again (hs : s.Ready id config) (hsettled : s.Settled) (kind : Kind) (order : Nat)
    (between : List Request) :
    (((s.step (.rule id kind order)).2.after between).step (.rule id kind order)).1 =
      (s.step (.rule id kind order)).1 := by
  have heffect := s.step_effect (.rule id kind order)
  have hs' := (heffect.ready hs).after between
  have hsettled' := (heffect.settled hsettled).after between
  obtain ⟨r, hr, hconfig⟩ := hs.hasLimits
  obtain ⟨r', hr', hconfig'⟩ := hs'.hasLimits
  rcases step_rule_verdict kind order hsettled hr with
    ⟨cause, hverdict, hres⟩ | ⟨rule, hverdict, hres⟩ <;>
  rcases step_rule_verdict kind order hsettled' hr' with
    ⟨cause', hverdict', hres'⟩ | ⟨rule', hverdict', hres'⟩ <;>
  rw [hconfig] at hverdict <;> rw [hconfig', hverdict] at hverdict' <;> rw [hres, hres']
  · rw [Except.error.inj hverdict']
  · cases hverdict'
  · cases hverdict'
  · -- The first rule is still kept when the second request is answered.
    have hkept := holds_after (holds_of_step rfl (Prod.ext hres rfl)) between
    have hkept' := (step_effect _ (.rule id kind order)).holds hkept
    rw [(holds_of_step rfl (Prod.ext hres' rfl)).unique hkept']

/-! ## Side sets -/

/-- The set covers a topology with rules of the registry at a place. -/
def Covers (s : Session) (id : RegistryId) (set : SideSet) (t : Topology Float) : Prop :=
  ∃ r, s.registries[id]? = some r ∧ set.Covers r t

theorem Effect.covers {set : SideSet} {t : Topology Float} (h : s.Effect target s')
    (hs : s.Covers id set t) : s'.Covers id set t := by
  obtain ⟨r, hr, hset⟩ := hs
  obtain ⟨r', hr', hext⟩ := h.registry_extends hr
  exact ⟨r', hr', hset.of_extends hext⟩

theorem Covers.after {set : SideSet} {t : Topology Float} (h : s.Covers id set t)
    (requests : List Request) : (s.after requests).Covers id set t :=
  after_induction h (fun hs h => h.covers hs) requests

theorem HasLimits.unique {config' : Config} (h : s.HasLimits id config)
    (h' : s.HasLimits id config') : config = config' := by
  obtain ⟨r, hr, rfl⟩ := h
  obtain ⟨r', hr', rfl⟩ := h'
  rw [Option.some.inj (hr.symm.trans hr')]

/-- A set that is built covers the topology of its query, for the base of the query, and has the
contents that these call for. -/
theorem BuildsSet.covers {request : Request} {key : SetKey} (hs : s.Settled)
    (h : s.BuildsSet request c key set) :
    ∃ q t id config, request.sideQuery? = some q ∧ q.topology = .ok t ∧ q.catalog = c ∧
      q.key = key ∧ (s.step request).2.Draws c id ∧ (s.step request).2.HasLimits id config ∧
        (s.step request).2.Covers id set.value t ∧ set.value.base = q.base ∧
          setVerdict config t q.base.value.order = .ok set.value.contents := by
  obtain ⟨q, hq, rfl, rfl, hnew, hres⟩ := h
  obtain ⟨t, ht, hserve⟩ := (answers_of_step hq hres).serve
  obtain ⟨catalog, r, w, hc, hr, hbuild, -, hregs, -⟩ := serve_of_not_files hnew hserve
  obtain ⟨-, hbase, hcovers⟩ := buildSideSet_ok hbuild
  have heffect := s.step_effect request
  have hout := gives_buildSideSet r.config q.name t q.base ⟨r, s.journal⟩ (hs _ r hr)
  rw [hbuild] at hout
  refine ⟨q, t, catalog.registry, r.config, hq, ht, rfl, rfl, heffect.draws ⟨catalog, hc, rfl⟩,
    heffect.hasLimits ⟨r, hr, rfl⟩, ⟨w.registry, ?_, hcovers⟩, hbase, hout.symm⟩
  rw [hregs, List.getElem?_set_self (List.getElem?_eq_some_iff.mp hr).1]

/-- A set that is filed under a name of an element was built for the element and the very base that
it is filed under, and it has the contents that these call for. -/
theorem Faithful.covers_of_files {origin : Origin} (h : Faithful c requests)
    (hname : name ∈ e.names) (hbase : Arises requests origin base)
    (hf : (({} : Session).after requests).Files c id (name, base.id) set)
    (hlimits : (({} : Session).after requests).HasLimits id config) :
    (({} : Session).after requests).Covers id set.value e.topology ∧ set.value.base = base ∧
      setVerdict config e.topology base.value.order = .ok set.value.contents := by
  obtain ⟨before, request, later, rfl, hbuild⟩ := exists_buildsSet hf
  obtain ⟨q, t, id', config', hq, ht, rfl, hkey, hdraws, hlimits', hcovers, hset, hverdict⟩ :=
    hbuild.covers (settled_start.after before)
  obtain ⟨⟨origin', hgenuine⟩, htop⟩ := h before request later q rfl hq rfl
  obtain ⟨hqname, hqbase⟩ := Prod.mk.inj hkey
  obtain rfl : q.base = base := (hgenuine.append (request :: later)).eq_of_id hbase hqbase
  obtain rfl := Except.ok.inj ((htop (hqname ▸ hname)).symm.trans ht)
  rw [after_append_cons] at hf hlimits ⊢
  -- What held when the set was built holds after the rest of the run.
  obtain rfl := (hdraws.after later).unique hf.draws
  obtain rfl := (hlimits'.after later).unique hlimits
  exact ⟨hcovers.after later, hset, hverdict⟩

/-- What a request for the set of a name of an element ends with: the element, the order of the base
and the limits of the registry say whether it fails and how. -/
theorem Faithful.sideSet_outcome (h : Faithful c (requests ++ [.sideSet c name base]))
    (hname : name ∈ e.names) (hc : (({} : Session).after requests).catalogs[c]? = some catalog)
    (hlimits : (({} : Session).after requests).HasLimits catalog.registry config) :
    (∃ cause, setVerdict config e.topology base.value.order = .error cause ∧
      ((({} : Session).after requests).step (.sideSet c name base)).1 = .error cause) ∨
    ∃ set, setVerdict config e.topology base.value.order = .ok set.value.contents ∧
      ((({} : Session).after requests).step (.sideSet c name base)).1 = .ok (.sideSet set) ∧
      ((({} : Session).after requests).step (.sideSet c name base)).2.Covers catalog.registry
        set.value e.topology ∧ set.value.base = base := by
  have hq : (Request.sideSet c name base).sideQuery? = some ⟨c, name, .ok e.topology, base⟩ := by
    rw [Request.sideQuery?, topology_ofName hname]
  obtain ⟨⟨origin, hbase⟩, -⟩ := h requests _ [] _ rfl hq rfl
  have hs := sound_start.after requests
  have heffect := step_effect (({} : Session).after requests) (.sideSet c name base)
  cases hres : ((({} : Session).after requests).step (.sideSet c name base)).1 with
  | error cause =>
    obtain ⟨r, hr, rfl⟩ := hlimits
    refine .inl ⟨cause, ?_, rfl⟩
    cases hfind : catalog.find? name base with
    | some set =>
      rw [step_of_files hs.filed hq rfl ⟨catalog, hc, rfl, hfind⟩] at hres
      cases hres
    | none =>
      rw [step_build hq rfl hc hr hfind] at hres
      have hout := gives_buildSideSet r.config name e.topology base
        ⟨r, (({} : Session).after requests).journal⟩ ((settled_start.after requests) _ r hr)
      generalize (buildSideSet name e.topology base).run
        ⟨r, (({} : Session).after requests).journal⟩ = out at hres hout
      obtain ⟨cause' | set, w⟩ := out <;> cases hres
      exact hout.symm
  | ok answer =>
    obtain ⟨set, rfl⟩ := exists_set_of_step hq hres
    -- The set is filed after the request, as one that the run built.
    have hanswer := answers_of_step hq hres
    obtain ⟨id, hf⟩ := hanswer.files
    obtain rfl := (heffect.draws ⟨catalog, hc, rfl⟩).unique hf.draws
    have hone : (({} : Session).after (requests ++ [.sideSet c name base])) =
        ((({} : Session).after requests).step (.sideSet c name base)).2 := after_append_cons ..
    obtain ⟨hcovers, hset, hverdict⟩ := h.covers_of_files hname
      (hbase.append [.sideSet c name base]) (hone ▸ hf) (hone ▸ heffect.hasLimits hlimits)
    exact .inr ⟨set, hverdict, rfl, hone ▸ hcovers, hset⟩

/-! ## Runs -/

variable {base₁ base₂ : Shared FloatRule}

/-- A run is faithful as far as it goes. -/
theorem Faithful.of_append {later : List Request} (h : Faithful c (requests ++ later)) :
    Faithful c requests := by
  intro before request later' q hrun
  exact h before request (later' ++ later) q (by rw [hrun, List.append_assoc, List.cons_append])

/-- Two requests for side sets by names of one element, with bases of one order and any requests in
between, fail alike or are answered with sets that are alike. -/
theorem Faithful.sideSets_alike (between : List Request)
    (h : Faithful c (requests ++ .sideSet c a base₁ :: between ++ [.sideSet c b base₂]))
    (ha : a ∈ e.names) (hb : b ∈ e.names) (horder : base₂.value.order = base₁.value.order)
    (hc : (({} : Session).after requests).catalogs[c]? = some catalog)
    (hr : (({} : Session).after requests).registries[catalog.registry]? = some r) :
    (∃ cause, ((({} : Session).after requests).step (.sideSet c a base₁)).1 = .error cause ∧
      ((({} : Session).after (requests ++ .sideSet c a base₁ :: between)).step
        (.sideSet c b base₂)).1 = .error cause) ∨
    ∃ set₁ set₂,
      ((({} : Session).after requests).step (.sideSet c a base₁)).1 = .ok (.sideSet set₁) ∧
      ((({} : Session).after (requests ++ .sideSet c a base₁ :: between)).step
        (.sideSet c b base₂)).1 = .ok (.sideSet set₂) ∧
      set₁.value.Alike set₂.value ∧ (set₂.isSame set₁ ↔ b = a ∧ base₂.isSame base₁) := by
  have hfirst : Faithful c (requests ++ [.sideSet c a base₁]) := by
    rw [List.append_assoc, List.cons_append, List.append_cons] at h
    exact h.of_append
  obtain ⟨s₁, hs₁⟩ : ∃ s₁, ((({} : Session).after requests).step (.sideSet c a base₁)).2 = s₁ :=
    ⟨_, rfl⟩
  have hafter : ({} : Session).after (requests ++ .sideSet c a base₁ :: between) =
      s₁.after between := by
    rw [after_append_cons, hs₁]
  -- The catalog still draws on a registry of the same limits when the second request comes.
  have heffect := step_effect (({} : Session).after requests) (.sideSet c a base₁)
  have hlimits : (({} : Session).after requests).HasLimits catalog.registry r.config := ⟨r, hr, rfl⟩
  obtain ⟨catalog', hc', hid⟩ := (heffect.draws ⟨catalog, hc, rfl⟩).after between
  have hlimits' := (heffect.hasLimits hlimits).after between
  rw [hs₁, ← hafter] at hc' hlimits'
  have hfirst := hfirst.sideSet_outcome ha hc hlimits
  have hsecond := h.sideSet_outcome hb hc' (hid ▸ hlimits')
  rw [horder] at hsecond
  -- Both requests end with one verdict, so they fail alike or are both answered.
  rcases hfirst with ⟨cause, hverdict, hres⟩ | ⟨set₁, hverdict, hres, hcovers, hbase⟩ <;>
  rcases hsecond with ⟨cause', hverdict', hres'⟩ | ⟨set₂, hverdict', hres', hcovers', hbase'⟩ <;>
  rw [hverdict] at hverdict'
  · exact .inl ⟨cause, hres, by rw [hres', Except.error.inj hverdict']⟩
  · cases hverdict'
  · cases hverdict'
  · refine .inr ⟨set₁, set₂, hres, hres', ?_, ?_⟩
    · rw [hs₁] at hcovers
      -- The first set still covers the element in the registry that the second one covers it in.
      have hkept := hcovers.after between
      rw [← hafter] at hkept
      obtain ⟨r₁, hr₁, hset₁⟩ := (step_effect _ (.sideSet c b base₂)).covers hkept
      obtain ⟨r₂, hr₂, hset₂⟩ := hcovers'
      rw [hid] at hr₂
      obtain rfl := Option.some.inj (hr₁.symm.trans hr₂)
      exact hset₁.alike hset₂ (by rw [hbase', hbase, horder])
    · have hanswer := answers_of_step (q := ⟨c, a, _, base₁⟩) rfl hres
      have hanswer' := answers_of_step (q := ⟨c, b, _, base₂⟩) rfl hres'
      rw [hs₁] at hanswer
      rw [hafter] at hanswer'
      obtain ⟨hsame, hof⟩ := hanswer.same_iff (filed_after requests) hanswer'
      exact ⟨fun h => (hof h).2, fun h => by simp [hsame ⟨rfl, h⟩, Shared.isSame]⟩

/-- Names of one element over every run.

* A registry ends a request for a rule by any of the names in the same way, at the same point of a
  run and at any two points: with the very same rule, or with the same failure.
* Requests for side sets by any of the names, with base rules of one order, both fail with the same
  failure, or both are answered, with sets that have the same number of sides, the very same side
  rules and parent rules of the same contents. The sets are one and the same exactly if the names
  are the same and the bases are one and the same. -/
theorem aliases_of_run (requests between : List Request) {e : ReferenceElement} {a b : String}
    (ha : a ∈ e.names) (hb : b ∈ e.names) :
    (∀ {id : RegistryId} {r : Registry} (order : Nat),
      (({} : Session).after requests).registries[id]? = some r →
        (({} : Session).after requests).step (.ruleForElement id b order) =
          (({} : Session).after requests).step (.ruleForElement id a order) ∧
        ((({} : Session).after (requests ++ .ruleForElement id a order :: between)).step
            (.ruleForElement id b order)).1 =
          ((({} : Session).after requests).step (.ruleForElement id a order)).1) ∧
    ∀ {c : CatalogId} {catalog : Catalog} {r : Registry} {base₁ base₂ : Shared FloatRule},
      (({} : Session).after requests).catalogs[c]? = some catalog →
      (({} : Session).after requests).registries[catalog.registry]? = some r →
      Faithful c (requests ++ .sideSet c a base₁ :: between ++ [.sideSet c b base₂]) →
      base₂.value.order = base₁.value.order →
        (∃ cause, ((({} : Session).after requests).step (.sideSet c a base₁)).1 = .error cause ∧
          ((({} : Session).after (requests ++ .sideSet c a base₁ :: between)).step
            (.sideSet c b base₂)).1 = .error cause) ∨
        ∃ set₁ set₂,
          ((({} : Session).after requests).step (.sideSet c a base₁)).1 = .ok (.sideSet set₁) ∧
          ((({} : Session).after (requests ++ .sideSet c a base₁ :: between)).step
            (.sideSet c b base₂)).1 = .ok (.sideSet set₂) ∧
          set₁.value.Alike set₂.value ∧ (set₂.isSame set₁ ↔ b = a ∧ base₂.isSame base₁) := by
  refine ⟨fun {id r} order hr => ?_, fun hc hr h horder =>
    h.sideSets_alike between ha hb horder hc hr⟩
  have hready : (({} : Session).after requests).Ready id r.config :=
    ⟨sound_start.after requests, r, hr, rfl⟩
  have hagain := step_rule_again hready (settled_start.after requests) e.kind order between
  have hafter : ({} : Session).after (requests ++ .ruleForElement id a order :: between) =
      ((({} : Session).after requests).step (.rule id e.kind order)).2.after between := by
    rw [after_append, ← step_ruleForElement ha]
    rfl
  constructor
  · rw [step_ruleForElement hb, step_ruleForElement ha]
  · rw [hafter, step_ruleForElement hb, step_ruleForElement ha]
    exact hagain

/-- Two names of the cube, one with a kept rule and one with two points that a caller supplied: the
sets are two, but have the same rules on their sides. -/
theorem aliases_of_hexahedron_run :
    ∃ (base₁ base₂ : Shared FloatRule) (set₁ set₂ : Shared SideSet),
      base₁.value.kind = .hexahedron ∧ base₂.value.kind = .arbitrary ∧
      ((({} : Session).after [.hexahedron 0 2, .arbitrary 1 2 [0.5, 0.25] none]).step
        (.sideSet 0 "HEX8" base₁)).1 = .ok (.sideSet set₁) ∧
      ((({} : Session).after [.hexahedron 0 2, .arbitrary 1 2 [0.5, 0.25] none,
        .sideSet 0 "HEX8" base₁, .line 0 3]).step (.sideSet 0 "HEX27" base₂)).1 =
          .ok (.sideSet set₂) ∧
      set₁.value.Alike set₂.value ∧ ¬set₂.isSame set₁ := by
  obtain ⟨base₁, base₂, hf, hkind₁, horder₁, hsupplied, hkind₂, horder₂⟩ :
      ∃ base₁ base₂ : Shared FloatRule,
        (({} : Session).after [.hexahedron 0 2, .arbitrary 1 2 [0.5, 0.25] none]).Holds 0
          .hexahedron 2 base₁ ∧
        base₁.value.kind = .hexahedron ∧ base₁.value.order = 2 ∧
        ((({} : Session).after [.hexahedron 0 2]).step (.arbitrary 1 2 [0.5, 0.25] none)).1 =
          .ok (.rule base₂) ∧
        base₂.value.kind = .arbitrary ∧ base₂.value.order = 2 :=
    ⟨_, _, ⟨_, rfl, rfl⟩, rfl, rfl, rfl, rfl, rfl⟩
  have harises₁ : Arises [.hexahedron 0 2, .arbitrary 1 2 [0.5, 0.25] none] (.registry 0) base₁ :=
    arises_registry_iff.mpr ⟨_, _, hf⟩
  have harises₂ : Arises [.hexahedron 0 2, .arbitrary 1 2 [0.5, 0.25] none] .caller base₂ :=
    @Arises.supplied _ [.hexahedron 0 2] [] _ _ _ _ _ rfl hsupplied
  have hcube : Faithful 0 [.hexahedron 0 2] := (faithful_nil 0).concat fun q hq => nomatch hq
  have hrun : Faithful 0 [.hexahedron 0 2, .arbitrary 1 2 [0.5, 0.25] none] :=
    hcube.concat fun q hq => nomatch hq
  have hfirst : Faithful 0 [.hexahedron 0 2, .arbitrary 1 2 [0.5, 0.25] none,
      .sideSet 0 "HEX8" base₁] := by
    refine hrun.concat fun q hq _ => ?_
    cases hq
    exact ⟨⟨_, harises₁⟩, fun hname => topology_ofName hname⟩
  have hline : Faithful 0 [.hexahedron 0 2, .arbitrary 1 2 [0.5, 0.25] none,
      .sideSet 0 "HEX8" base₁, .line 0 3] := hfirst.concat fun q hq => nomatch hq
  have hsecond : Faithful 0 [.hexahedron 0 2, .arbitrary 1 2 [0.5, 0.25] none,
      .sideSet 0 "HEX8" base₁, .line 0 3, .sideSet 0 "HEX27" base₂] := by
    refine hline.concat fun q hq _ => ?_
    cases hq
    exact ⟨⟨_, harises₂.append [.sideSet 0 "HEX8" base₁, .line 0 3]⟩,
      fun hname => topology_ofName hname⟩
  have ⟨r, hr, _⟩ := hf
  have hc : (({} : Session).after [.hexahedron 0 2, .arbitrary 1 2 [0.5, 0.25] none]).catalogs[0]? =
      some { registry := 0 } := rfl
  obtain ⟨set, s', rule, hstep, -⟩ := hrun.exists_sideSet hc
    (show 2 ≤ ReferenceElement.hex8.dim by decide)
    (show "HEX8" ∈ ReferenceElement.hex8.names by decide) hf
  rcases (aliases_of_run [.hexahedron 0 2, .arbitrary 1 2 [0.5, 0.25] none] [.line 0 3]
      (show "HEX8" ∈ ReferenceElement.hex8.names by decide)
      (show "HEX27" ∈ ReferenceElement.hex8.names by decide)).2 hc hr hsecond
      (horder₂.trans horder₁.symm) with
    ⟨cause, hres, -⟩ | ⟨set₁, set₂, hset₁, hset₂, halike, hsame⟩
  · rw [hstep] at hres
    cases hres
  · refine ⟨base₁, base₂, set₁, set₂, hkind₁, hkind₂, hset₁, hset₂, halike, fun h => ?_⟩
    exact absurd (hsame.mp h).1 (by decide)

end Session

end Cubature
