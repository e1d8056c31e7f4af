import Cubature.Proofs.Registry.Request
import Cubature.Proofs.Session.Identity

/-!
# Ownership over a run

A rule of a run was built by a registry, supplied by a caller, or carried into an element for a
side set (`Origin`, `Session.Arises`). A registry owns exactly the rules that it built itself, from
then on (`Arises.owns_iff`), although it only looks up the kind and the order of a rule and compares
numbers: every rule is kept under its own kind and order, and no two places keep the same rule.

A rule that is asked for its side rule or for another order by itself answers for the global
registry (`Session.SelfRequests`). The main statement is `ownership_of_run`.
-/

namespace Cubature

/-- Where a rule comes from: a registry built it, a caller supplied it, or it was carried into an
element. -/
inductive Origin where
  | registry (id : RegistryId)
  | caller
  | carried
  deriving DecidableEq

theorem Registry.owns_iff_find? {r : Registry} {rule : Shared FloatRule} :
    r.owns rule = true ↔
      ∃ kept, r.find? rule.value.kind rule.value.order = some kept ∧ kept.isSame rule := by
  unfold owns
  cases r.find? rule.value.kind rule.value.order <;> simp

namespace Session

variable {s s' : Session} {requests : List Request} {id : RegistryId} {kind : Kind} {order : Nat}
  {rule : Shared FloatRule} {origin : Origin} {r g : Registry}

/-! ## Origins -/

/-- The rules of a run from the start. A registry built a rule if a request to it reported that it
built the rule of a kind and an order, and the rule was kept under these afterwards. -/
inductive Arises (requests : List Request) : Origin → Shared FloatRule → Prop where
  | built {before later : List Request} {request : Request} {id : RegistryId} {kind : Kind}
    {order : Nat} {rule : Shared FloatRule} (hrun : requests = before ++ request :: later)
    (hbuild : (({} : Session).after before).Builds request id kind order)
    (hkept : ((({} : Session).after before).step request).2.Holds id kind order rule) :
    Arises requests (.registry id) rule
  | supplied {before later : List Request} {dim npoints : Nat} {coords : List Float}
    {weights : Option (List Float)} {rule : Shared FloatRule}
    (hrun : requests = before ++ .arbitrary dim npoints coords weights :: later)
    (h : ((({} : Session).after before).step (.arbitrary dim npoints coords weights)).1 =
      .ok (.rule rule)) : Arises requests .caller rule
  | carried {before later : List Request} {request : Request} {q : SideQuery}
    {set : Shared SideSet} {i : Nat} {rule : Shared FloatRule}
    (hrun : requests = before ++ request :: later) (hq : request.sideQuery? = some q)
    (h : ((({} : Session).after before).step request).1 = .ok (.sideSet set))
    (hparent : set.value.parentRule i = .ok rule) : Arises requests .carried rule

/-- What a registry built is what it keeps. -/
theorem arises_registry_iff :
    Arises requests (.registry id) rule ↔
      ∃ kind order, (({} : Session).after requests).Holds id kind order rule := by
  constructor
  · rintro (@⟨before, later, request, _, kind, order, _, rfl, -, hkept⟩)
    refine ⟨kind, order, ?_⟩
    rw [after_append]
    exact holds_after hkept later
  · rintro ⟨kind, order, hf⟩
    obtain ⟨before, request, later, rfl, hbuild⟩ :=
      (keeps_after.mp ⟨rule, hf⟩).resolve_left not_keeps_start
    obtain ⟨rule', hkept⟩ := keeps_step.mpr (.inr hbuild)
    rw [after_append] at hf
    obtain rfl := hf.unique (holds_after hkept later)
    exact .built rfl hbuild hkept

/-! ## Every rule has an origin -/

/-- A request that is answered with a rule stands for a registry, a kind and an order, or supplies
the rule. -/
theorem supplies_of_step {request : Request} (hkey : request.ruleKey? = none)
    (h : s.step request = (.ok (.rule rule), s')) :
    ∃ dim npoints coords weights, request = .arbitrary dim npoints coords weights := by
  cases request with
  | arbitrary dim npoints coords weights => exact ⟨dim, npoints, coords, weights, rfl⟩
  | rule | line | quadrilateral | triangle | hexahedron | tetrahedron | forStiffness | forMass
  | changeOrder => cases hkey
  | ruleForElement id name order =>
    have hname : ReferenceElement.ofName? name = none := Option.map_eq_none_iff.mp hkey
    obtain ⟨r, w, -, hrun, -⟩ := within_ok (rule_map_ok h)
    rw [Registry.ruleForElement, Kind.ofElement, ReferenceElement.ofName, hname] at hrun
    cases hrun
  | sideRule id base =>
    have hside := Registry.sideRule_of_none (Option.map_eq_none_iff.mp hkey)
    cases id with
    | some id =>
      obtain ⟨r, w, -, hrun, -⟩ := within_ok (rule_map_ok h)
      rw [hside] at hrun
      cases hrun
    | none =>
      obtain ⟨_, _, -, hwithin⟩ := bind_ok (rule_map_ok h)
      obtain ⟨r, w, -, hrun, -⟩ := within_ok hwithin
      rw [hside] at hrun
      cases hrun
  | newRegistry config =>
    obtain ⟨_, _, -, hanswer⟩ := bind_ok h
    cases hanswer
  | warmUp id kinds orders =>
    obtain ⟨_, _, -, hanswer⟩ := bind_ok h
    cases hanswer
  | newCatalog | sideSet | sideSetFor =>
    obtain ⟨_, -, hanswer⟩ := map_ok h
    cases hanswer

/-- A rule that a request is answered with has an origin. -/
theorem arises_of_step {request : Request}
    (h : ((({} : Session).after requests).step request).1 = .ok (.rule rule)) :
    ∃ origin, Arises (requests ++ [request]) origin rule := by
  cases hkey : request.ruleKey? with
  | none =>
    obtain ⟨dim, npoints, coords, weights, rfl⟩ := supplies_of_step hkey (Prod.ext h rfl)
    exact ⟨.caller, .supplied rfl h⟩
  | some key =>
    obtain ⟨id, kind, order⟩ := key
    refine ⟨.registry id, arises_registry_iff.mpr ⟨kind, order, ?_⟩⟩
    rw [after_append]
    exact holds_of_step hkey (Prod.ext h rfl)

/-! ## Owners -/

/-- A rule that a caller supplied is made of what was supplied. -/
theorem arbitrary_of_supplied {dim npoints : Nat} {coords : List Float}
    {weights : Option (List Float)}
    (h : (s.step (.arbitrary dim npoints coords weights)).1 = .ok (.rule rule)) :
    Rule.arbitrary dim npoints coords weights = .ok rule.value := by
  unfold step at h
  simp only [Request.perform, run_map, run_arbitrary] at h
  cases hrule : Rule.arbitrary dim npoints coords weights with
  | error => rw [hrule] at h; cases h
  | ok rule' =>
    rw [hrule] at h
    cases h
    rfl

theorem kind_of_supplied {dim npoints : Nat} {coords : List Float} {weights : Option (List Float)}
    (h : (s.step (.arbitrary dim npoints coords weights)).1 = .ok (.rule rule)) :
    rule.value.kind = .arbitrary :=
  congrArg Rule.kind (Rule.arbitrary_ok (arbitrary_of_supplied h)).1

theorem kind_of_parent {set : SideSet} {t : Topology Float} {i : Nat} (h : set.Complete t)
    (hparent : set.parentRule i = .ok rule) : rule.value.kind = .arbitrary := by
  rcases Nat.lt_or_ge i set.numSides with hi | hi
  · obtain ⟨_, parent, -, hparent', hkind, -⟩ := h.inside hi
    obtain rfl := Except.ok.inj (hparent.symm.trans hparent')
    exact hkind
  · rw [(h.outside hi).2] at hparent
    cases hparent

/-- Rules that no registry built are arbitrary. -/
theorem Arises.kind_eq (h : Arises requests origin rule) (hne : ∀ id, origin ≠ .registry id) :
    rule.value.kind = .arbitrary := by
  cases h with
  | built => exact absurd rfl (hne _)
  | supplied _ h => exact kind_of_supplied h
  | @carried before _ request q set i _ _ hq h hparent =>
    obtain ⟨-, -, t, hset, -⟩ := (answers_of_step hq h).complete (filed_after before)
    exact kind_of_parent hset hparent

/-- A registry owns exactly the rules that it built. -/
theorem Arises.owns_iff (h : Arises requests origin rule)
    (hr : (({} : Session).after requests).registries[id]? = some r) :
    r.owns rule = true ↔ origin = .registry id := by
  have hs := sound_start.after requests
  rw [Registry.owns_iff_find?]
  cases origin with
  | registry id' =>
    obtain ⟨kind, order, hf⟩ := arises_registry_iff.mp h
    obtain ⟨r', hr', hfind⟩ := hf
    have hfits := (hs.wellKept _ r' hr').fits hfind
    rw [hfits.kind_eq, hfits.order_eq]
    constructor
    · rintro ⟨kept, hkept, hsame⟩
      have hid := hs.distinct.key_eq ((holds_iff hr).mpr hkept) ((holds_iff hr').mpr hfind)
        (by simpa [Shared.isSame] using hsame)
      rw [hid.1]
    · intro hid
      obtain rfl := Origin.registry.inj hid
      obtain rfl := Option.some.inj (hr.symm.trans hr')
      exact ⟨rule, hfind, by simp [Shared.isSame]⟩
  | caller | carried =>
    have hkind := h.kind_eq (by simp)
    simp [hkind, find?_arbitrary (hs.wellKept _ r hr)]

/-! ## Requests of a rule by itself -/

/-- What a rule answers by itself, where `g` is the global registry. Arbitrary rules are not
supported. Of the other rules those that `g` does not own are foreign, whatever their kind and
whatever order is asked for. All else is answered as `g` answers it. -/
structure SelfRequests (s : Session) (g : Registry) (rule : Shared FloatRule) : Prop where
  arbitrary : rule.value.kind = .arbitrary →
    s.step (.sideRule none rule) =
      (.error (.rejected (.unsupported "side_rule" rule.value.name)), s) ∧
    ∀ order, s.step (.changeOrder none rule order) =
      (.error (.rejected (.unsupported "change_order" rule.value.name)), s)
  foreign : rule.value.kind ≠ .arbitrary → g.owns rule = false →
    s.step (.sideRule none rule) =
      (.error (.rejected (.foreignRule rule.value.name rule.value.order)), s) ∧
    ∀ order, s.step (.changeOrder none rule order) =
      (.error (.rejected (.foreignRule rule.value.name rule.value.order)), s)
  owned : g.owns rule = true →
    s.step (.sideRule none rule) = s.step (.sideRule (some globalRegistry) rule) ∧
    ∀ order, s.step (.changeOrder none rule order) =
      s.step (.changeOrder (some globalRegistry) rule order)

/-- An answer that needs no registry leaves the session as it is. -/
theorem run_within_ofExcept {β : Type} (hr : s.registries[id]? = some r)
    (answer : Except Failure β) :
    (within id (Work.ofExcept answer)).run s = (answer, s) := by
  obtain ⟨hlt, rfl⟩ := List.getElem?_eq_some_iff.mp hr
  rw [run_within, hr]
  simp

section Global

variable {β : Type} (hg : s.registries[globalRegistry]? = some g)

include hg

theorem run_requireGlobal_foreign (hkind : rule.value.kind ≠ .arbitrary)
    (hown : g.owns rule = false) (x : Action β) :
    (requireGlobal rule >>= fun _ => x).run s =
      (.error (.rejected (.foreignRule rule.value.name rule.value.order)), s) := by
  rw [run_bind, run_requireGlobal, hg]
  simp [hkind, hown]

theorem run_requireGlobal_pass (h : rule.value.kind = .arbitrary ∨ g.owns rule = true)
    (x : Action β) : (requireGlobal rule >>= fun _ => x).run s = x.run s := by
  have hpass : ¬(rule.value.kind ≠ .arbitrary ∧ ¬g.owns rule = true) := by tauto
  rw [run_bind, run_requireGlobal, hg]
  simp only [if_neg hpass]

theorem selfRequests (rule : Shared FloatRule) : s.SelfRequests g rule where
  arbitrary hkind := by
    have hside := Registry.sideRule_of_none (r := rule.value) (by rw [hkind]; rfl)
    have hchange : ∀ order, Registry.changeOrder rule.value order =
        Work.ofExcept (.error (.rejected (.unsupported "change_order" rule.value.name))) :=
      fun order => if_pos hkind
    constructor
    · rw [step, Request.perform, run_map, sideRule, run_requireGlobal_pass hg (.inl hkind), hside,
        run_within_ofExcept hg]
      rfl
    · intro order
      rw [step, Request.perform, run_map, changeOrder, run_requireGlobal_pass hg (.inl hkind),
        hchange, run_within_ofExcept hg]
      rfl
  foreign hkind hown := by
    constructor
    · rw [step, Request.perform, run_map, sideRule, run_requireGlobal_foreign hg hkind hown]
      rfl
    · intro order
      rw [step, Request.perform, run_map, changeOrder, run_requireGlobal_foreign hg hkind hown]
      rfl
  owned hown := by
    constructor
    · rw [step, Request.perform, run_map, sideRule, run_requireGlobal_pass hg (.inr hown), step,
        Request.perform, run_map]
    · intro order
      rw [step, Request.perform, run_map, changeOrder, run_requireGlobal_pass hg (.inr hown), step,
        Request.perform, run_map]

end Global

end Session

/-! ## Side rules of kept rules -/

/-- If the points of a rule can be counted, the points on a side fit one table, also when they are
carried into the element. -/
theorem Kind.pointCount_sideKind_lt {kind side : Kind} {order n dim : Nat}
    (hside : kind.sideKind? = some side) (hcount : kind.pointCount? order = some n)
    (hdim : kind.dim? = some dim) (hn : n < Size.wordCount) :
    (side.pointCount? order).getD 0 * dim < Size.tableLimit := by
  have hword : Size.wordCount = 2 ^ 64 := rfl
  have htable : Size.tableLimit = 2 ^ 60 := rfl
  cases kind with
  | arbitrary | line => cases hside
  | quadrilateral | triangle =>
    cases hside
    cases hdim
    obtain rfl := Option.some.inj hcount
    have horder : order < 2 ^ 32 := by
      refine Nat.lt_of_not_le fun hge => ?_
      have := Nat.mul_le_mul hge hge
      omega
    simp only [pointCount?, Option.getD_some]
    omega
  | hexahedron | tetrahedron =>
    cases hside
    cases hdim
    obtain rfl := Option.some.inj hcount
    have horder : order < 2 ^ 22 := by
      refine Nat.lt_of_not_le fun hge => ?_
      have := Nat.mul_le_mul (Nat.mul_le_mul hge hge) hge
      omega
    have hsquare : order * order ≤ 2 ^ 22 * 2 ^ 22 :=
      Nat.mul_le_mul (Nat.le_of_lt horder) (Nat.le_of_lt horder)
    simp only [pointCount?, Option.getD_some]
    omega

/-- If the points of a rule can be counted, the rules on its sides fit their tables. -/
theorem Kind.coordCount_sideKind_lt {kind side : Kind} {order n : Nat}
    (hside : kind.sideKind? = some side) (hcount : kind.pointCount? order = some n)
    (hn : n < Size.wordCount) : side.coordCount order < Size.tableLimit := by
  obtain ⟨dim, hdim, hle⟩ : ∃ dim, kind.dim? = some dim ∧ side.dim?.getD 0 ≤ dim := by
    cases kind <;> cases hside <;> exact ⟨_, rfl, by decide⟩
  exact Nat.lt_of_le_of_lt (Nat.mul_le_mul_left _ hle)
    (pointCount_sideKind_lt hside hcount hdim hn)

/-- A side has no more coordinates than the element. -/
theorem Kind.coordCount_sideKind_le {kind side : Kind} {order : Nat}
    (hside : kind.sideKind? = some side) (hpos : 1 ≤ order) :
    side.coordCount order ≤ kind.coordCount order := by
  have hsquare : order ≤ order * order := Nat.le_mul_of_pos_right _ hpos
  have hcube : order * order ≤ order * order * order := Nat.le_mul_of_pos_right _ hpos
  cases kind with
  | arbitrary | line => cases hside
  | quadrilateral | triangle | hexahedron | tetrahedron =>
    cases hside
    simp only [coordCount, pointCount?, dim?, Option.getD_some]
    omega

theorem Kind.sideKind_ne_arbitrary {kind side : Kind} (hside : kind.sideKind? = some side) :
    side ≠ .arbitrary := by
  cases kind <;> cases hside <;> decide

/-- A side has one dimension less than the element. -/
theorem Kind.dim?_sideKind {kind side : Kind} {dim : Nat} (hside : kind.sideKind? = some side)
    (hdim : kind.dim? = some (dim + 1)) : side.dim? = some dim := by
  cases kind with
  | arbitrary | line => cases hside
  | quadrilateral | triangle | hexahedron | tetrahedron =>
    cases hside
    cases hdim
    rfl

theorem Kind.exists_sideKind {kind : Kind} {dim : Nat} (h : kind.dim? = some dim) (hdim : 2 ≤ dim) :
    ∃ side, kind.sideKind? = some side ∧ side ≠ .arbitrary := by
  cases kind with
  | arbitrary => cases h
  | line =>
    cases h
    omega
  | quadrilateral | triangle | hexahedron | tetrahedron => exact ⟨_, rfl, by decide⟩

/-- The side rule of a kept rule of at least two dimensions is always there. Its order is within
the limits, since that of the kept rule is, and it is smaller than the kept rule. -/
theorem Registry.WellKept.answers_sideRule {r : Registry} {kind : Kind} {order : Nat}
    {rule : Shared FloatRule} (hr : r.WellKept) (hf : r.find? kind order = some rule)
    (hdim : 2 ≤ rule.value.dim) : (sideRule rule.value).Answers r.config := by
  have hfits := hr.fits hf
  obtain ⟨hpos, hmax⟩ := hr.order_le hf
  obtain ⟨side, hside, hne⟩ := Kind.exists_sideKind hfits.dim_eq hdim
  have hsize := Kind.coordCount_sideKind_lt hside hfits.pointCount_eq hfits.npoints_lt
  rw [← hfits.kind_eq] at hside
  rw [sideRule_eq hside, hfits.order_eq]
  exact answers_rule hne hpos hmax hsize

namespace Session

variable {s : Session} {requests : List Request} {id : RegistryId} {rule : Shared FloatRule}
  {origin : Origin} {r g : Registry}

/-- A registry has the side rules of all rules of at least two dimensions that it built. -/
theorem Arises.step_sideRule (h : Arises requests (.registry id) rule) (hdim : 2 ≤ rule.value.dim) :
    ∃ answer s', (({} : Session).after requests).step (.sideRule (some id) rule) =
      (.ok (.rule answer), s') := by
  obtain ⟨kind, order, r, hr, hf⟩ := arises_registry_iff.mp h
  have hkept := (sound_start.after requests).wellKept _ r hr
  obtain ⟨answer, w, hrun⟩ := hkept.answers_sideRule hf hdim
    ⟨r, (({} : Session).after requests).journal⟩ rfl
  have hstep : ((({} : Session).after requests).step (.sideRule (some id) rule)).1 =
      .ok (.rule answer) := by
    rw [step, Request.perform, run_map, run_within, hr]
    simp only [hrun]
    rfl
  exact ⟨answer, _, Prod.ext hstep rfl⟩

theorem exists_global (requests : List Request) :
    ∃ g, (({} : Session).after requests).registries[globalRegistry]? = some g := by
  refine after_induction (P := fun s => ∃ g, s.registries[globalRegistry]? = some g)
    ⟨_, rfl⟩ (fun ⟨g, hg⟩ h => ?_) requests
  obtain ⟨g', hg', -⟩ := h.registry_extends hg
  exact ⟨g', hg'⟩

/-- Ownership over every run.

* Every rule that a request is answered with has an origin, and what a registry built is what it
  keeps.
* A registry owns a rule exactly if it built that rule.
* A registry answers with the side rule of every rule of at least two dimensions that it built.
* What a rule answers by itself is decided by its kind and by whether the global registry owns it,
  and the side rule of an owned rule of at least two dimensions is answered. -/
theorem ownership_of_run (requests : List Request) :
    (∀ {request : Request} {rule : Shared FloatRule},
      ((({} : Session).after requests).step request).1 = .ok (.rule rule) →
        ∃ origin, Arises (requests ++ [request]) origin rule) ∧
    (∀ {id : RegistryId} {rule : Shared FloatRule}, Arises requests (.registry id) rule ↔
      ∃ kind order, (({} : Session).after requests).Holds id kind order rule) ∧
    (∀ {origin : Origin} {rule : Shared FloatRule} {id : RegistryId} {r : Registry},
      Arises requests origin rule → (({} : Session).after requests).registries[id]? = some r →
        (r.owns rule = true ↔ origin = .registry id)) ∧
    (∀ {id : RegistryId} {rule : Shared FloatRule}, Arises requests (.registry id) rule →
      2 ≤ rule.value.dim →
        ∃ answer s', (({} : Session).after requests).step (.sideRule (some id) rule) =
          (.ok (.rule answer), s')) ∧
    ∃ g, (({} : Session).after requests).registries[globalRegistry]? = some g ∧
      (∀ rule, (({} : Session).after requests).SelfRequests g rule) ∧
      ∀ {origin : Origin} {rule : Shared FloatRule}, Arises requests origin rule →
        g.owns rule = true → 2 ≤ rule.value.dim →
          ∃ answer s', (({} : Session).after requests).step (.sideRule none rule) =
            (.ok (.rule answer), s') := by
  obtain ⟨g, hg⟩ := exists_global requests
  refine ⟨arises_of_step, arises_registry_iff, fun h hr => h.owns_iff hr, fun h => h.step_sideRule,
    g, hg, selfRequests hg, fun h hown hdim => ?_⟩
  obtain rfl := (h.owns_iff hg).mp hown
  rw [((selfRequests hg _).owned hown).1]
  exact h.step_sideRule hdim

/-- Two registries that built the same line rule, one of them for a square rule, each own their
own. The one that is not the global registry's is foreign when it is asked for another order,
whatever that is, and the square rule has its side rule. -/
theorem ownership_of_two_registries :
    ∃ (rule rule' square : Shared FloatRule) (r r' : Registry) (s : Session),
      s = ({} : Session).after [.quadrilateral 0 2, .newRegistry none, .line 1 2] ∧
      s.registries[0]? = some r ∧ s.registries[1]? = some r' ∧ rule.value = rule'.value ∧
      r.owns rule = true ∧ r'.owns rule = false ∧ r.owns rule' = false ∧ r'.owns rule' = true ∧
      s.step (.changeOrder none rule' 0) =
        (.error (.rejected (.foreignRule "bar" 2)), s) ∧
      r.owns square = true ∧ ∃ answer s', s.step (.sideRule none square) =
        (.ok (.rule answer), s') := by
  obtain ⟨s, hs⟩ :
      ∃ s, s = ({} : Session).after [.quadrilateral 0 2, .newRegistry none, .line 1 2] := ⟨_, rfl⟩
  obtain ⟨rule, rule', square, r, r', hr, hr', hf, hf', hsquare, hvalue, hkind, hname, horder,
      hdim⟩ : ∃ (rule rule' square : Shared FloatRule) (r r' : Registry),
        s.registries[0]? = some r ∧ s.registries[1]? = some r' ∧
        r.find? .line 2 = some rule ∧ r'.find? .line 2 = some rule' ∧
        r.find? .quadrilateral 2 = some square ∧ rule.value = rule'.value ∧
        rule'.value.kind ≠ .arbitrary ∧ rule'.value.name = "bar" ∧ rule'.value.order = 2 ∧
        2 ≤ square.value.dim := by
    subst hs
    refine ⟨_, _, _, _, _, rfl, rfl, rfl, rfl, rfl, ?_, ?_, rfl, rfl, ?_⟩
    · rfl
    · exact Kind.noConfusion
    · exact Nat.le_refl 2
  obtain ⟨-, hbuilt, howns, -, g, hg, hself, hside⟩ :=
    ownership_of_run [.quadrilateral 0 2, .newRegistry none, .line 1 2]
  rw [← hs] at hg hself hside
  simp only [← hs] at hbuilt howns
  obtain rfl := Option.some.inj (hg.symm.trans hr)
  have hrule := hbuilt.mpr ⟨.line, 2, g, hr, hf⟩
  have hrule' := hbuilt.mpr ⟨.line, 2, r', hr', hf'⟩
  have hsquare := hbuilt.mpr ⟨.quadrilateral, 2, g, hr, hsquare⟩
  have hforeign : g.owns rule' = false :=
    Bool.eq_false_iff.mpr (mt (howns hrule' hr).mp (by decide))
  have hown : g.owns square = true := (howns hsquare hr).mpr rfl
  refine ⟨rule, rule', square, g, r', s, hs, hr, hr', hvalue, (howns hrule hr).mpr rfl, ?_,
    hforeign, (howns hrule' hr').mpr rfl, ?_, hown, hside hsquare hown hdim⟩
  · exact Bool.eq_false_iff.mpr (mt (howns hrule hr').mp (by decide))
  · rw [((hself rule').foreign hkind hforeign).2 0, hname, horder]

end Session

end Cubature
