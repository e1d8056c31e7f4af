import Cubature.Proofs.Session.Calls
import Cubature.Proofs.Session.Numbers
import Cubature.Proofs.Session.Outcome
import Cubature.Proofs.Side.Reference

/-!
# Two ways to a side rule

The rule on the sides of a rule can be had from the registry, by the kind of the rule, or from a
side set of a reference element, by the shapes of its sides. Both ways lead to the one rule that the
registry keeps, whichever is gone first (`Session.sideRules_of_run`).

Catalogs file sets by name and by the number of the base rule. So this is said of runs in which the
names of reference elements are used for these elements only and bases are rules of the run
(`Session.Faithful`).
-/

namespace Cubature

/-- The set has as many sides as the element, and one and the same rule on all of them. -/
structure SideSet.HasSides (set : SideSet) (e : ReferenceElement) (rule : Shared FloatRule) :
    Prop where
  numSides_eq : set.numSides = e.sides.length
  sideRule_eq : ∀ {i : Nat}, i < e.sides.length → set.sideRule i = .ok rule

namespace Session

/-- A query after a run: its base is a rule of the run, and if its name stands for an element, it
asks for that element. -/
structure Genuine (requests : List Request) (q : SideQuery) : Prop where
  arises : ∃ origin, Arises requests origin q.base
  topology_eq : ∀ {e : ReferenceElement}, q.name ∈ e.names → q.topology = .ok e.topology

/-- All queries of a run to the catalog at a place are genuine. -/
def Faithful (c : CatalogId) (requests : List Request) : Prop :=
  ∀ (before : List Request) (request : Request) (later : List Request) (q : SideQuery),
    requests = before ++ request :: later → request.sideQuery? = some q → q.catalog = c →
      Genuine before q

variable {s s' : Session} {target : Option RegistryId} {c : CatalogId} {id : RegistryId}
  {requests : List Request} {request : Request} {q : SideQuery} {catalog : Catalog}
  {e : ReferenceElement} {name : String} {order : Nat} {base rule : Shared FloatRule}
  {set : Shared SideSet}

theorem faithful_nil (c : CatalogId) : Faithful c [] := by
  intro before request later q hrun
  simp at hrun

/-- A run goes on faithfully with a genuine query, or with any other request. -/
theorem Faithful.concat (h : Faithful c requests)
    (hrequest : ∀ q, request.sideQuery? = some q → q.catalog = c → Genuine requests q) :
    Faithful c (requests ++ [request]) := by
  intro before request' later q hrun hq hc
  rcases List.eq_nil_or_concat later with rfl | ⟨later, last, rfl⟩
  · obtain ⟨rfl, hlast⟩ := List.append_inj' hrun rfl
    cases hlast
    exact hrequest q hq hc
  · rw [List.concat_eq_append, ← List.cons_append, ← List.append_assoc] at hrun
    exact h before request' later q (List.append_inj' hrun rfl).1 hq hc

theorem topology_ofName (hname : name ∈ e.names) :
    (ReferenceElement.ofName name).map (·.topology) =
      (.ok e.topology : Except Failure (Topology Float)) := by
  rw [ReferenceElement.ofName, ReferenceElement.ofName?_eq_some_iff.mpr hname]
  rfl

/-! ## Sets of reference elements -/

/-- The rule on the sides of a set is the one that the registry keeps for the sides of an element
at an order. -/
structure KeepsSides (s : Session) (id : RegistryId) (e : ReferenceElement) (order : Nat)
    (set : SideSet) (rule : Shared FloatRule) : Prop where
  hasSides : set.HasSides e rule
  holds : ∃ side, e.kind.sideKind? = some side ∧ s.Holds id side order rule

theorem KeepsSides.after (h : s.KeepsSides id e order set.value rule) (requests : List Request) :
    (s.after requests).KeepsSides id e order set.value rule :=
  ⟨h.hasSides, h.holds.imp fun _ ⟨hside, hf⟩ => ⟨hside, holds_after hf requests⟩⟩

/-- A new set of a reference element has on all sides the rule that the registry keeps. -/
theorem Answers.exists_keepsSides (h : s.Answers q set s') (hs : s.Filed)
    (hnew : ¬s.FilesKey q.catalog q.key) (ht : q.topology = .ok e.topology) (hdim : 2 ≤ e.dim)
    (hc : s'.Draws q.catalog id) :
    ∃ rule, s'.KeepsSides id e q.base.value.order set.value rule := by
  obtain ⟨catalog, hc, rfl⟩ := hc
  obtain ⟨-, -, t, hset, htop⟩ := h.complete hs
  obtain rfl := Except.ok.inj (ht.symm.trans (htop hnew))
  obtain ⟨side, hshape, hside, -⟩ := ReferenceElement.exists_sideElement hdim
  have hnum : set.value.numSides = e.sides.length := hset.numSides_eq
  have hkept : ∀ i < e.sides.length, ∃ rule, set.value.sideRule i = .ok rule ∧
      s'.Holds catalog.registry side.kind q.base.value.order rule := by
    intro i hi
    obtain ⟨rule, -, hrule, -⟩ := hset.inside (hnum ▸ hi)
    exact ⟨rule, hrule, h.holds_new hnew ht hc (if_pos hi) (Topology.ofElement_eq_ok hshape) hrule⟩
  obtain ⟨rule, -, hf⟩ := hkept 0 e.sides_pos
  refine ⟨rule, ⟨hnum, fun {i} hi => ?_⟩, side.kind, hside, hf⟩
  obtain ⟨rule', hrule', hf'⟩ := hkept i hi
  rw [hrule', hf'.unique hf]

/-- So has a set that was filed in a faithful run, for the very base that it was filed under. -/
theorem Faithful.exists_keepsSides (h : Faithful c requests) (hdim : 2 ≤ e.dim)
    (hname : name ∈ e.names) (hf : (({} : Session).after requests).Files c id (name, base.id) set)
    (hbase : (({} : Session).after requests).Holds id e.kind order base) :
    ∃ rule, (({} : Session).after requests).KeepsSides id e base.value.order set.value rule := by
  obtain ⟨before, request, later, rfl, q, hq, rfl, hkey, hnew, hres⟩ := exists_buildsSet hf
  obtain ⟨⟨origin, hgenuine⟩, htop⟩ := h before request later q rfl hq rfl
  obtain ⟨hqname, hqbase⟩ := Prod.mk.inj hkey
  have hanswer := answers_of_step hq hres
  obtain ⟨id', hfiled⟩ := hanswer.files
  rw [after_append_cons] at hf ⊢
  obtain rfl := (hfiled.draws.after later).unique hf.draws
  obtain ⟨rule, hrule⟩ := hanswer.exists_keepsSides (filed_after before) (hkey ▸ hnew)
    (htop (hqname ▸ hname)) hdim hfiled.draws
  have heq : q.base = base := (hgenuine.append (request :: later)).eq_of_holds hbase hqbase
  rw [heq] at hrule
  exact ⟨rule, hrule.after later⟩

/-! ## Queries -/

/-- A set that is filed is served. -/
theorem step_of_files (hs : s.Filed) (hq : request.sideQuery? = some q) {t : Topology Float}
    (ht : q.topology = .ok t) (hf : s.Files q.catalog id q.key set) :
    s.step request = (.ok (.sideSet set), s) := by
  obtain ⟨r, -, hr, -⟩ := hs.covers hf
  obtain ⟨catalog, hc, rfl, hfind⟩ := hf
  have hfind : catalog.find? q.name q.base = some set := hfind
  rw [step_query hq, run_map, serveQuery, run_bind, run_ofExcept, ht]
  simp only [run_serveSideSet, hc, hr, hfind]
  rfl

/-- The sides of an element fit their tables if the registry keeps a rule of the element. -/
theorem fitsTables_of_holds {r : Registry} (hs : s.WellKept) (hr : s.registries[id]? = some r)
    (hdim : 2 ≤ e.dim) (hf : s.Holds id e.kind order base) :
    (e.topology (α := Float)).FitsTables r.config.maxOrder base.value.order := by
  have hfits := (hs _ r hr).fits ((holds_iff hr).mp hf)
  obtain ⟨side, hshape, hside, -⟩ := ReferenceElement.exists_sideElement hdim
  have hkind : e.kind.dim? = some e.dim := by cases e <;> rfl
  refine ⟨by cases e <;> decide, fun {i side'} hi hshape' _ => ?_⟩
  obtain rfl := ReferenceElement.eq_of_mem_names hshape
    ((ReferenceElement.hasShape_iff (α := Float) hi).mp hshape')
  rw [hfits.order_eq]
  exact ⟨Kind.coordCount_sideKind_lt hside hfits.pointCount_eq hfits.npoints_lt,
    Kind.pointCount_sideKind_lt hside hfits.pointCount_eq hkind hfits.npoints_lt⟩

/-- In a faithful run, a query for a reference element and a kept rule of its kind is answered with
a set that has on all sides the rule that the registry keeps. -/
theorem Faithful.exists_sideSet (h : Faithful c requests)
    (hc : (({} : Session).after requests).catalogs[c]? = some catalog) (hdim : 2 ≤ e.dim)
    (hname : name ∈ e.names)
    (hbase : (({} : Session).after requests).Holds catalog.registry e.kind order base) :
    ∃ set s' rule, (({} : Session).after requests).step (.sideSet c name base) =
      (.ok (.sideSet set), s') ∧
        s'.KeepsSides catalog.registry e base.value.order set.value rule := by
  have hs := sound_start.after requests
  have ⟨r, hr, hfind⟩ := hbase
  cases hset : catalog.find? name base with
  | some set =>
    -- It was built for this element, since the name was used for no other.
    have hf : (({} : Session).after requests).Files c catalog.registry (name, base.id) set :=
      ⟨catalog, hc, rfl, hset⟩
    obtain ⟨rule, hrule⟩ := h.exists_keepsSides hdim hname hf hbase
    exact ⟨set, _, rule, step_of_files hs.filed rfl (topology_ofName hname) hf, hrule⟩
  | none =>
    have hfits := fitsTables_of_holds hs.wellKept hr hdim hbase
    have hw := hs.wellKept _ r hr
    have hwell : (e.topology (α := Float)).WellFormed r.config.maxOrder base.value.order :=
      ReferenceElement.wellFormed hdim ((hw.fits hfind).order_eq ▸ hw.order_le hfind)
    have hq : (Request.sideSet c name base).sideQuery? =
        some ⟨c, name, .ok e.topology, base⟩ := by
      rw [Request.sideQuery?, topology_ofName hname]
    obtain ⟨set, hset'⟩ := (step_build_ok_iff hq rfl hc hr hset).mpr
      ((buildSideSet_ok_iff hw hfits).mpr hwell)
    have hnew : ¬(({} : Session).after requests).FilesKey c (name, base.id) := by
      rintro ⟨-, set', catalog', hc', -, hf⟩
      obtain rfl := Option.some.inj (hc.symm.trans hc')
      exact absurd (hset.symm.trans hf) (by simp)
    have hanswer := answers_of_step hq hset'
    have hdraws : (({} : Session).after requests).Draws c catalog.registry := ⟨catalog, hc, rfl⟩
    obtain ⟨rule, hrule⟩ := hanswer.exists_keepsSides hs.filed hnew rfl hdim
      ((step_effect _ _).draws hdraws)
    exact ⟨set, _, rule, Prod.ext hset' rfl, hrule⟩

/-- The side rule of a kept rule of an element is at any time answered with the rule that the
registry keeps. -/
theorem exists_sideRule (hs : s.Sound) (hdim : 2 ≤ e.dim) (hf : s.Holds id e.kind order base)
    (between : List Request) :
    ∃ rule s', (s.after between).step (.sideRule (some id) base) = (.ok (.rule rule), s') ∧
      ∃ side, e.kind.sideKind? = some side ∧ s'.Holds id side order rule := by
  obtain ⟨side, -, hside, -⟩ := ReferenceElement.exists_sideElement hdim
  have ⟨r, hr, hfind⟩ := hf
  have hfits := (hs.wellKept _ r hr).fits hfind
  obtain ⟨hpos, hmax⟩ := (hs.wellKept _ r hr).order_le hfind
  have hadmits : r.config.Admits side.kind order :=
    ⟨Kind.sideKind_ne_arbitrary hside, hpos, hmax,
      Kind.coordCount_sideKind_lt hside hfits.pointCount_eq hfits.npoints_lt⟩
  have hkey : RuleCall.sideRule.key? (e.kind, order) = some (side.kind, order) := by
    rw [RuleCall.key?, hside, Option.map_some]
  obtain ⟨rule, s', hstep, hrule⟩ :=
    always_of_holds ⟨hs, r, hr, rfl⟩ hf (.cons hkey hadmits .nil) between
  exact ⟨rule, s', hstep, side.kind, hside, hrule⟩

/-- A rule of a run that a registry owns is kept under its own kind and order. -/
theorem Arises.holds_of_owns {origin : Origin} {r : Registry} (h : Arises requests origin base)
    (hr : (({} : Session).after requests).registries[id]? = some r) (hown : r.owns base = true) :
    (({} : Session).after requests).Holds id base.value.kind base.value.order base := by
  obtain rfl := (h.owns_iff hr).mp hown
  obtain ⟨kind, order, hf⟩ := arises_registry_iff.mp h
  have hfits := ((sound_start.after requests).wellKept _ r hr).fits ((holds_iff hr).mp hf)
  rwa [hfits.kind_eq, hfits.order_eq]

section Ways

variable (hc : (({} : Session).after requests).catalogs[c]? = some catalog) (hdim : 2 ≤ e.dim)
  (hname : name ∈ e.names)
  (hf : (({} : Session).after requests).Holds catalog.registry e.kind base.value.order base)

include hc hdim hname hf

/-- The set first: its sides have the rule that the registry still keeps when it is asked. -/
theorem Faithful.hasSides_of_set (h : Faithful c requests) :
    ∃ set s', (({} : Session).after requests).step (.sideSet c name base) =
        (.ok (.sideSet set), s') ∧
      ∀ between : List Request, ∃ rule s'',
        (s'.after between).step (.sideRule (some catalog.registry) base) =
          (.ok (.rule rule), s'') ∧ set.value.HasSides e rule := by
  have hs := sound_start.after requests
  obtain ⟨set, s', rule, hstep, hsides, side, hside, hrule⟩ := h.exists_sideSet hc hdim hname hf
  have heffect := effect_of_step hstep
  refine ⟨set, s', hstep, fun between => ?_⟩
  obtain ⟨rule', s'', hstep', side', hside', hrule'⟩ :=
    exists_sideRule (heffect.sound hs) hdim (heffect.holds hf) between
  obtain rfl := Option.some.inj (hside.symm.trans hside')
  have hkept := (effect_of_step hstep').holds (holds_after hrule between)
  obtain rfl := hrule'.unique hkept
  exact ⟨rule', s'', hstep', hsides⟩

/-- The rule first: the registry still keeps it when a set is asked for. -/
theorem hasSides_of_sideRule :
    ∃ rule s', (({} : Session).after requests).step (.sideRule (some catalog.registry) base) =
        (.ok (.rule rule), s') ∧
      ∀ between : List Request,
        Faithful c (requests ++ .sideRule (some catalog.registry) base :: between) →
          ∃ set s'', (s'.after between).step (.sideSet c name base) = (.ok (.sideSet set), s'') ∧
            set.value.HasSides e rule := by
  have hs := sound_start.after requests
  obtain ⟨rule, s', hstep, side, hside, hrule⟩ := exists_sideRule hs hdim hf []
  refine ⟨rule, s', hstep, fun between hfaithful => ?_⟩
  have hafter : s'.after between = ({} : Session).after
      (requests ++ .sideRule (some catalog.registry) base :: between) := by
    rw [after_append]
    exact congrArg (fun s : Session => s.after between) (congrArg Prod.snd hstep).symm
  have heffect := effect_of_step hstep
  obtain ⟨catalog', hc', hid⟩ := after_induction (heffect.draws ⟨catalog, hc, rfl⟩)
    (fun hs h => h.draws hs) between
  have hf' := holds_after (heffect.holds hf) between
  rw [← hid, hafter] at hf'
  rw [hafter] at hc' ⊢
  obtain ⟨set, s'', rule', hstep', hsides, side', hside', hrule'⟩ :=
    hfaithful.exists_sideSet hc' hdim hname hf'
  obtain rfl := Option.some.inj (hside.symm.trans hside')
  have hkept := (effect_of_step hstep').holds (hafter ▸ holds_after hrule between)
  rw [hid] at hrule'
  obtain rfl := hrule'.unique hkept
  exact ⟨set, s'', hstep', hsides⟩

end Ways

/-! ## Runs -/

/-- The two ways to a side rule, over every run that is faithful to a catalog, for a reference
element of dimension two or three, a name of it, and a rule of its kind that the registry of the
catalog owns. A side set is answered that has as many sides as the element, and the side rule of
the registry is answered, and they agree on every side:

* if the set is asked for first, whatever else happens before the rule is asked for;
* if the rule is asked for first, whatever else happens before the set is asked for, as long as the
  run stays faithful. -/
theorem sideRules_of_run {origin : Origin} {r : Registry} (hrun : Faithful c requests)
    (hc : (({} : Session).after requests).catalogs[c]? = some catalog)
    (hr : (({} : Session).after requests).registries[catalog.registry]? = some r)
    (hdim : 2 ≤ e.dim) (hname : name ∈ e.names) (hbase : Arises requests origin base)
    (hown : r.owns base = true) (hkind : base.value.kind = e.kind) :
    (∃ set s', (({} : Session).after requests).step (.sideSet c name base) =
        (.ok (.sideSet set), s') ∧
      ∀ between : List Request, ∃ rule s'',
        (s'.after between).step (.sideRule (some catalog.registry) base) =
          (.ok (.rule rule), s'') ∧ set.value.HasSides e rule) ∧
    ∃ rule s', (({} : Session).after requests).step (.sideRule (some catalog.registry) base) =
        (.ok (.rule rule), s') ∧
      ∀ between : List Request,
        Faithful c (requests ++ .sideRule (some catalog.registry) base :: between) →
          ∃ set s'', (s'.after between).step (.sideSet c name base) = (.ok (.sideSet set), s'') ∧
            set.value.HasSides e rule := by
  have hf : (({} : Session).after requests).Holds catalog.registry e.kind base.value.order base :=
    hkind ▸ hbase.holds_of_owns hr hown
  exact ⟨hrun.hasSides_of_set hc hdim hname hf, hasSides_of_sideRule hc hdim hname hf⟩

/-- The set of the cube before the side rule, and after it, when a topology with a name of its own
was described in between. -/
theorem sideRules_of_hexahedron_run :
    ∃ base : Shared FloatRule, (({} : Session).after [.hexahedron 0 2]).Holds 0 .hexahedron 2 base ∧
      (∃ set s' rule s'', (({} : Session).after [.hexahedron 0 2]).step (.sideSet 0 "HEX27" base) =
          (.ok (.sideSet set), s') ∧
        (s'.after [.line 0 5]).step (.sideRule (some 0) base) = (.ok (.rule rule), s'') ∧
        set.value.HasSides .hex8 rule) ∧
      ∃ rule s' set s'', (({} : Session).after [.hexahedron 0 2]).step (.sideRule (some 0) base) =
          (.ok (.rule rule), s') ∧
        (s'.after [.sideSetFor 0 truncatedSquare base]).step (.sideSet 0 "HEX27" base) =
          (.ok (.sideSet set), s'') ∧
        set.value.HasSides .hex8 rule := by
  obtain ⟨base, hf, hkind⟩ : ∃ base,
      (({} : Session).after [.hexahedron 0 2]).Holds 0 .hexahedron 2 base ∧
        base.value.kind = .hexahedron := ⟨_, ⟨_, rfl, rfl⟩, rfl⟩
  have harises : Arises [.hexahedron 0 2] (.registry 0) base := arises_registry_iff.mpr ⟨_, _, hf⟩
  have hrun : Faithful 0 [.hexahedron 0 2] := (faithful_nil 0).concat fun q hq => nomatch hq
  have hcustom : ∀ e : ReferenceElement, truncatedSquare.name ∉ e.names := by
    intro e
    cases e <;> decide
  have hside : Faithful 0 [.hexahedron 0 2, .sideRule (some 0) base] :=
    hrun.concat fun q hq => nomatch hq
  have hlater : Faithful 0 [.hexahedron 0 2, .sideRule (some 0) base,
      .sideSetFor 0 truncatedSquare base] := by
    refine hside.concat fun q hq _ => ?_
    cases hq
    exact ⟨⟨_, harises.append _⟩, fun {e} hname => absurd hname (hcustom e)⟩
  have hc : (({} : Session).after [.hexahedron 0 2]).catalogs[0]? = some { registry := 0 } := rfl
  have ⟨r, hr, _⟩ := hf
  obtain ⟨⟨set, s', hstep, hfirst⟩, rule', s₁, hstep₁, hsecond⟩ :=
    sideRules_of_run hrun hc hr (show 2 ≤ ReferenceElement.hex8.dim by decide)
      (show "HEX27" ∈ ReferenceElement.hex8.names by decide) harises
      ((harises.owns_iff hr).mpr rfl) hkind
  obtain ⟨rule, s'', hrule, hsides⟩ := hfirst [.line 0 5]
  obtain ⟨set', s₂, hset', hsides'⟩ := hsecond _ hlater
  exact ⟨base, hf, ⟨set, s', rule, s'', hstep, hrule, hsides⟩, rule', s₁, set', s₂, hstep₁, hset',
    hsides'⟩

end Session

end Cubature
