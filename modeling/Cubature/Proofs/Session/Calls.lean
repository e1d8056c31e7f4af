import Cubature.Proofs.Session.Ownership
import Cubature.Proofs.Session.Schedule

/-!
# Laws of side rules and changes of order

A registry can be asked, with a rule, for the rule on its sides and for its kind at another order
(`RuleCall`), and the answer can be asked with in turn. What such calls end with depends on the kind
and the order alone (`RuleCall.Path`), so two sequences of calls that lead to the same kind and
order end with one and the same rule.

* `Session.Always`: calls one after another, with any requests in between, are answered, and the
  last answer has a property. What all requests keep holds at the end as well (`Always.frame`).
* `Session.always_of_holds`, `Session.always_of_path`: the last answer is the rule that the registry
  keeps under the kind and order at the end of the path.
* `Session.RuleLaws`: changes of order overwrite each other and commute with side rules, and side
  rules go down to the line rule. The main statement is `ruleLaws_of_reachable`.
-/

namespace Cubature

/-- What a registry can be asked with a rule. -/
inductive RuleCall where
  /-- The rule on its sides. -/
  | sideRule
  /-- The rule of its kind at another order. -/
  | changeOrder (order : Nat)

/-- The kind and the order have rules under the limits, and these rules fit one table. -/
structure Config.Admits (config : Config) (kind : Kind) (order : Nat) : Prop where
  ne_arbitrary : kind ≠ .arbitrary
  one_le : 1 ≤ order
  le_max : order ≤ config.maxOrder
  coordCount_lt : kind.coordCount order < Size.tableLimit

namespace RuleCall

/-- The call as a request to the registry at a place. -/
def request (id : RegistryId) (rule : Shared FloatRule) : RuleCall → Request
  | .sideRule => .sideRule (some id) rule
  | .changeOrder order => .changeOrder (some id) rule order

/-- The kind and the order that are asked for with a rule of the given ones. -/
def key? : RuleCall → RuleKey → Option RuleKey
  | .sideRule, (kind, order) => kind.sideKind?.map fun side => (side, order)
  | .changeOrder order, (kind, _) => some (kind, order)

/-- From one kind and order a sequence of calls leads to another, by kinds and orders that are
admitted. -/
inductive Path (config : Config) : List RuleCall → RuleKey → RuleKey → Prop where
  | nil {key : RuleKey} : Path config [] key key
  | cons {call : RuleCall} {calls : List RuleCall} {key next last : RuleKey}
    (hkey : call.key? key = some next) (hadmits : config.Admits next.1 next.2)
    (hrest : Path config calls next last) : Path config (call :: calls) key last

/-- From a kind of some dimension, side rules lead down to every positive dimension below it. -/
theorem exists_descent {config : Config} {kind : Kind} {order dim n : Nat} (hpos : 1 ≤ order)
    (hmax : order ≤ config.maxOrder)
    (hsize : ∀ side, kind.sideKind? = some side → side.coordCount order < Size.tableLimit)
    (hdim : kind.dim? = some dim) (hn : n < dim) :
    ∃ side : Kind, side.dim? = some (dim - n) ∧
      Path config (List.replicate n .sideRule) (kind, order) (side, order) := by
  induction n generalizing kind dim with
  | zero => exact ⟨kind, hdim, .nil⟩
  | succ n ih =>
    obtain ⟨dim, rfl⟩ : ∃ d, dim = d + 1 := ⟨dim - 1, by omega⟩
    obtain ⟨side, hside, hne⟩ := Kind.exists_sideKind hdim (by omega)
    have hadmits : config.Admits side order := ⟨hne, hpos, hmax, hsize side hside⟩
    -- The sides of the side are smaller still.
    have hsize' : ∀ side', side.sideKind? = some side' →
        side'.coordCount order < Size.tableLimit := fun side' hside' =>
      Nat.lt_of_le_of_lt (Kind.coordCount_sideKind_le hside' hpos) hadmits.coordCount_lt
    obtain ⟨last, hlast, hpath⟩ :=
      ih hsize' (Kind.dim?_sideKind hside hdim) (Nat.lt_of_succ_lt_succ hn)
    refine ⟨last, by rw [hlast, Nat.add_sub_add_right], .cons ?_ hadmits hpath⟩
    rw [key?, hside, Option.map_some]

end RuleCall

/-- The sides of what is admitted are admitted. -/
theorem Config.Admits.sideKind {config : Config} {kind side : Kind} {order : Nat}
    (h : config.Admits kind order) (hside : kind.sideKind? = some side) :
    config.Admits side order where
  ne_arbitrary := Kind.sideKind_ne_arbitrary hside
  one_le := h.one_le
  le_max := h.le_max
  coordCount_lt := Nat.lt_of_le_of_lt (Kind.coordCount_sideKind_le hside h.one_le) h.coordCount_lt

namespace Session

variable {s s' : Session} {id : RegistryId} {config : Config} {kind : Kind} {order : Nat}
  {rule : Shared FloatRule} {calls calls' : List RuleCall} {call : RuleCall} {key last : RuleKey}
  {P Q : Session → Shared FloatRule → Prop} {target : Option RegistryId}

/-! ## Limits over a run -/

/-- The registry at a place has the given limits. -/
def HasLimits (s : Session) (id : RegistryId) (config : Config) : Prop :=
  ∃ r, s.registries[id]? = some r ∧ r.config = config

/-- Limits do not change. -/
theorem Effect.hasLimits (h : s.Effect target s') (hs : s.HasLimits id config) :
    s'.HasLimits id config := by
  obtain ⟨r, hr, rfl⟩ := hs
  have hlt := (List.getElem?_eq_some_iff.mp hr).1
  cases h.onRegistries with
  | same hregs => exact ⟨r, by rw [hregs, hr], rfl⟩
  | opened hregs => exact ⟨r, by rw [hregs, List.getElem?_append_left hlt, hr], rfl⟩
  | @worked i r₀ w _ _ hr₀ hw hregs =>
    by_cases hid : i = id
    · subst hid
      obtain rfl := Option.some.inj (hr.symm.trans hr₀)
      exact ⟨_, by rw [hregs, List.getElem?_set_self hlt], hw.config_eq⟩
    · exact ⟨r, by rw [hregs, List.getElem?_set_ne hid, hr], rfl⟩

theorem HasLimits.after (h : s.HasLimits id config) (requests : List Request) :
    (s.after requests).HasLimits id config :=
  after_induction h (fun hs h => h.hasLimits hs) requests

/-- A session in which calls on a registry can be made. -/
structure Ready (s : Session) (id : RegistryId) (config : Config) : Prop where
  sound : s.Sound
  hasLimits : s.HasLimits id config

theorem Effect.ready (h : s.Effect target s') (hs : s.Ready id config) : s'.Ready id config :=
  ⟨h.sound hs.sound, h.hasLimits hs.hasLimits⟩

theorem Ready.after (hs : s.Ready id config) (requests : List Request) :
    (s.after requests).Ready id config :=
  after_induction hs (fun hs h => h.ready hs) requests

/-! ## Calls one after another -/

/-- Calls are made on the registry at a place one after another, each with the answer to the one
before, and with any requests in between. All are answered, and the last answer and the session
after it have a property. -/
def Always (id : RegistryId) (P : Session → Shared FloatRule → Prop) :
    List RuleCall → Session → Shared FloatRule → Prop
  | [], s, rule => P s rule
  | call :: calls, s, rule => ∀ between : List Request, ∃ answer s',
      (s.after between).step (call.request id rule) = (.ok (.rule answer), s') ∧
        Always id P calls s' answer

theorem Always.mono (hPQ : ∀ s rule, P s rule → Q s rule) (h : Always id P calls s rule) :
    Always id Q calls s rule := by
  induction calls generalizing s rule with
  | nil => exact hPQ _ _ h
  | cons call calls ih =>
    intro between
    obtain ⟨answer, s', hstep, hrest⟩ := h between
    exact ⟨answer, s', hstep, ih hrest⟩

/-- What every request keeps holds at the end too. -/
theorem Always.frame {K : Session → Prop}
    (keep : ∀ {s s' : Session} {target : Option RegistryId}, K s → s.Effect target s' → K s')
    (hs : K s) (h : Always id P calls s rule) :
    Always id (fun s' answer => P s' answer ∧ K s') calls s rule := by
  induction calls generalizing s rule with
  | nil => exact ⟨h, hs⟩
  | cons call calls ih =>
    intro between
    obtain ⟨answer, s', hstep, hrest⟩ := h between
    have hs' := keep (after_induction hs keep between) (effect_of_step hstep)
    exact ⟨answer, s', hstep, ih hs' hrest⟩

theorem step_sideRule_eq {side : Kind} (hside : rule.value.kind.sideKind? = some side) :
    s.step (.sideRule (some id) rule) = s.step (.rule id side rule.value.order) := by
  simp only [step, Request.perform, Registry.sideRule_eq hside]

theorem step_changeOrder_eq (hne : rule.value.kind ≠ .arbitrary) :
    s.step (.changeOrder (some id) rule order) = s.step (.rule id rule.value.kind order) := by
  simp only [step, Request.perform, Registry.changeOrder, if_neg hne]

/-- A call is the request for the rule of the kind and the order that it asks for. -/
theorem step_call {next : RuleKey} (hkind : rule.value.kind = key.1)
    (horder : rule.value.order = key.2) (hkey : call.key? key = some next)
    (hne : next.1 ≠ .arbitrary) :
    s.step (call.request id rule) = s.step (.rule id next.1 next.2) := by
  cases call with
  | sideRule =>
    obtain ⟨side, hside, rfl⟩ := Option.map_eq_some_iff.mp hkey
    rw [RuleCall.request, step_sideRule_eq (hkind ▸ hside), horder]
  | changeOrder order =>
    obtain rfl := Option.some.inj hkey
    rw [RuleCall.request, step_changeOrder_eq (hkind ▸ hne), hkind]

/-- A call for a kind and an order that are admitted is answered with the rule that is then kept
under them. -/
theorem exists_answer (hs : s.Ready id config) {next : RuleKey} (hkind : rule.value.kind = key.1)
    (horder : rule.value.order = key.2) (hkey : call.key? key = some next)
    (hadmits : config.Admits next.1 next.2) :
    ∃ answer s', s.step (call.request id rule) = (.ok (.rule answer), s') ∧
      s'.Holds id next.1 next.2 answer ∧ s'.Ready id config := by
  obtain ⟨r, hr, rfl⟩ := hs.hasLimits
  obtain ⟨answer, s', hstep, hf, -, -⟩ :=
    (ruleTransition_of_wellKept hs.sound.wellKept hr next.1 next.2).answered hadmits.ne_arbitrary
      hadmits.one_le hadmits.le_max hadmits.coordCount_lt
  exact ⟨answer, s', (step_call hkind horder hkey hadmits.ne_arbitrary).trans hstep, hf,
    (effect_of_step hstep).ready hs⟩

/-- Calls with a rule that the registry keeps end with a rule that it keeps, at the end of their
path. -/
theorem always_of_holds (hs : s.Ready id config) (hf : s.Holds id key.1 key.2 rule)
    (hpath : RuleCall.Path config calls key last) :
    Always id (fun s' answer => s'.Holds id last.1 last.2 answer) calls s rule := by
  induction hpath generalizing s rule with
  | nil => exact hf
  | cons hkey hadmits _ ih =>
    intro between
    obtain ⟨r, hr, hfind⟩ := hf
    have hfits := (hs.sound.wellKept _ r hr).fits hfind
    obtain ⟨answer, s', hstep, hf', hs'⟩ :=
      exists_answer (hs.after between) hfits.kind_eq hfits.order_eq hkey hadmits
    exact ⟨answer, s', hstep, ih hs' hf'⟩

/-- So do calls with any rule of the kind and order at the start, if there are any calls. -/
theorem always_of_path (hs : s.Ready id config) (hkind : rule.value.kind = key.1)
    (horder : rule.value.order = key.2) (hcalls : calls ≠ [])
    (hpath : RuleCall.Path config calls key last) :
    Always id (fun s' answer => s'.Holds id last.1 last.2 answer) calls s rule := by
  cases hpath with
  | nil => exact absurd rfl hcalls
  | cons hkey hadmits hrest =>
    intro between
    obtain ⟨answer, s', hstep, hf, hs'⟩ :=
      exists_answer (hs.after between) hkind horder hkey hadmits
    exact ⟨answer, s', hstep, always_of_holds hs' hf hrest⟩

/-- A rule that is kept is served, whatever its size. -/
theorem step_rule_of_holds (hs : s.WellKept) (hf : s.Holds id kind order rule) :
    ∃ s', s.step (.rule id kind order) = (.ok (.rule rule), s') := by
  obtain ⟨r, hr, hfind⟩ := hf
  have hw := hs _ r hr
  have hne : kind ≠ .arbitrary := by
    rintro rfl
    rw [find?_arbitrary hw] at hfind
    cases hfind
  obtain ⟨hpos, hmax⟩ := hw.order_le hfind
  have hrun : (Registry.rule kind order).run ⟨r, s.journal⟩ =
      (.ok rule, Workshop.report ⟨r, s.journal⟩ (.served kind order)) := by
    rw [Registry.run_rule, Registry.accept_of_within hne hpos hmax]
    simp only [Registry.run_serve, hfind]
  exact ⟨_, step_rule_answered hr hrun⟩

/-! ## Laws -/

/-- Whichever of two sequences of calls is made first, all calls are answered, and both sequences
end with one and the same rule. -/
def Coincide (s : Session) (id : RegistryId) (rule : Shared FloatRule)
    (calls calls' : List RuleCall) : Prop :=
  Always id (fun s' a => Always id (fun _ b => b = a) calls' s' rule) calls s rule ∧
    Always id (fun s' a => Always id (fun _ b => b = a) calls s' rule) calls' s rule

/-- Two sequences of calls whose paths lead to the same kind and order coincide. -/
theorem coincide_of_path (hs : s.Ready id config) (hkind : rule.value.kind = key.1)
    (horder : rule.value.order = key.2) (hcalls : calls ≠ []) (hcalls' : calls' ≠ [])
    (hpath : RuleCall.Path config calls key last) (hpath' : RuleCall.Path config calls' key last) :
    s.Coincide id rule calls calls' := by
  -- The rule that the first sequence ends with is still kept when the second one has ended.
  have hafter : ∀ {calls calls' : List RuleCall}, calls ≠ [] → calls' ≠ [] →
      RuleCall.Path config calls key last → RuleCall.Path config calls' key last →
        Always id (fun s' a => Always id (fun _ b => b = a) calls' s' rule) calls s rule := by
    intro calls calls' hcalls hcalls' hpath hpath'
    have hfirst := (always_of_path hs hkind horder hcalls hpath).frame (fun h e => e.ready h) hs
    refine hfirst.mono fun s' a ⟨ha, hs'⟩ => ?_
    have hkeep : ∀ {s s' : Session} {target : Option RegistryId},
        s.Holds id last.1 last.2 a → s.Effect target s' → s'.Holds id last.1 last.2 a :=
      fun h e => e.holds h
    have hsecond := (always_of_path hs' hkind horder hcalls' hpath').frame hkeep ha
    exact hsecond.mono fun _ b ⟨hb, ha⟩ => hb.unique ha
  exact ⟨hafter hcalls hcalls' hpath hpath', hafter hcalls' hcalls hpath' hpath⟩

/-- The laws of calls on the registry `r` at a place with a rule. -/
structure RuleLaws (s : Session) (id : RegistryId) (r : Registry) (rule : Shared FloatRule) :
    Prop where
  /-- The last of two changes of order counts. -/
  changeOrder_changeOrder : ∀ {q q' : Nat}, r.config.Admits rule.value.kind q →
    r.config.Admits rule.value.kind q' →
      s.Coincide id rule [.changeOrder q, .changeOrder q'] [.changeOrder q']
  /-- At its own order a rule of the registry is itself. -/
  changeOrder_self : r.owns rule = true →
    Always id (fun _ answer => answer = rule) [.changeOrder rule.value.order] s rule
  /-- Side rules and changes of order commute. -/
  sideRule_changeOrder : ∀ {side : Kind} {q : Nat}, rule.value.kind.sideKind? = some side →
    rule.value.order ≤ r.config.maxOrder → r.config.Admits rule.value.kind q →
      s.Coincide id rule [.changeOrder q, .sideRule] [.sideRule, .changeOrder q]
  /-- Each side rule of a rule of the registry has its order and one dimension less. -/
  sideRule_dim : r.owns rule = true → ∀ n < rule.value.dim,
    Always id (fun _ answer => answer.value.order = rule.value.order ∧
      answer.value.dim = rule.value.dim - n) (List.replicate n .sideRule) s rule
  /-- The last of them is the line rule of the registry, which has no side rule. -/
  sideRule_line : r.owns rule = true →
    Always id (fun s' answer => s'.Holds id .line rule.value.order answer ∧
      ∀ between, (s'.after between).step (.sideRule (some id) answer) =
        (.error (.rejected (.unsupported "side_rule" Kind.line.name)), s'.after between))
      (List.replicate (rule.value.dim - 1) .sideRule) s rule

/-- Of the rules of a session a registry owns those that it keeps. -/
theorem holds_of_owns {id' : RegistryId} {r : Registry} (hs : s.Sound)
    (hr : s.registries[id]? = some r) (hf : s.Holds id' kind order rule)
    (hown : r.owns rule = true) : s.Holds id kind order rule := by
  obtain ⟨kept, hfind, hsame⟩ := Registry.owns_iff_find?.mp hown
  obtain ⟨rfl, -, -⟩ := hs.distinct.key_eq ((holds_iff hr).mpr hfind) hf
    (by simpa [Shared.isSame] using hsame)
  exact hf

/-- Changes of order overwrite each other. -/
theorem coincide_changeOrder {q q' : Nat} (hs : s.Ready id config)
    (hq : config.Admits rule.value.kind q) (hq' : config.Admits rule.value.kind q') :
    s.Coincide id rule [.changeOrder q, .changeOrder q'] [.changeOrder q'] := by
  have htwice : RuleCall.Path config [.changeOrder q, .changeOrder q']
      (rule.value.kind, rule.value.order) (rule.value.kind, q') :=
    .cons rfl hq (.cons rfl hq' .nil)
  have honce : RuleCall.Path config [.changeOrder q']
      (rule.value.kind, rule.value.order) (rule.value.kind, q') := .cons rfl hq' .nil
  exact coincide_of_path hs rfl rfl (List.cons_ne_nil _ _) (List.cons_ne_nil _ _) htwice honce

/-- A change of order and the step to the sides commute. -/
theorem coincide_sideRule_changeOrder {side : Kind} {q : Nat} (hs : s.Ready id config)
    (hside : rule.value.kind.sideKind? = some side)
    (horder : config.Admits side rule.value.order) (hq : config.Admits rule.value.kind q) :
    s.Coincide id rule [.changeOrder q, .sideRule] [.sideRule, .changeOrder q] := by
  have hkey : ∀ order, RuleCall.sideRule.key? (rule.value.kind, order) = some (side, order) :=
    fun order => by rw [RuleCall.key?, hside, Option.map_some]
  have hqside := hq.sideKind hside
  have hchanged : RuleCall.Path config [.changeOrder q, .sideRule]
      (rule.value.kind, rule.value.order) (side, q) := .cons rfl hq (.cons (hkey q) hqside .nil)
  have hside : RuleCall.Path config [.sideRule, .changeOrder q]
      (rule.value.kind, rule.value.order) (side, q) :=
    .cons (hkey _) horder (.cons rfl hqside .nil)
  exact coincide_of_path hs rfl rfl (List.cons_ne_nil _ _) (List.cons_ne_nil _ _) hchanged hside

/-- The side rule of a line rule is refused. -/
theorem step_sideRule_line (hs : s.WellKept) (hf : s.Holds id .line order rule) :
    s.step (.sideRule (some id) rule) =
      (.error (.rejected (.unsupported "side_rule" Kind.line.name)), s) := by
  obtain ⟨r, hr, hfind⟩ := hf
  have hkind := ((hs _ r hr).fits hfind).kind_eq
  rw [step, Request.perform, Registry.sideRule_of_none (by rw [hkind]; rfl), run_map,
    run_within_ofExcept hr, Rule.name, hkind]
  rfl

/-- Side rules of a rule that the registry keeps lead down to every positive dimension below its
own, to rules that the registry keeps. -/
theorem always_descent (hs : s.Sound) (hf : s.Holds id kind order rule) {n : Nat}
    (hn : n < rule.value.dim) :
    ∃ side : Kind, side.dim? = some (rule.value.dim - n) ∧
      Always id (fun s' answer => s'.Holds id side order answer ∧ s'.WellKept)
        (List.replicate n .sideRule) s rule := by
  have ⟨r, hr, hfind⟩ := hf
  have hfits := (hs.wellKept _ r hr).fits hfind
  obtain ⟨hpos, hmax⟩ := (hs.wellKept _ r hr).order_le hfind
  have hsize : ∀ side, kind.sideKind? = some side → side.coordCount order < Size.tableLimit :=
    fun side hside => Kind.coordCount_sideKind_lt hside hfits.pointCount_eq hfits.npoints_lt
  obtain ⟨side, hdim, hpath⟩ := RuleCall.exists_descent hpos hmax hsize hfits.dim_eq hn
  have hholds := always_of_holds ⟨hs, r, hr, rfl⟩ hf hpath
  exact ⟨side, hdim, hholds.frame (fun hs h => h.wellKept hs) hs.wellKept⟩

/-- The laws hold for every rule that a registry built, this or another one. -/
theorem ruleLaws_of_sound {id' : RegistryId} {r : Registry} (hs : s.Sound)
    (hr : s.registries[id]? = some r) (hf : s.Holds id' kind order rule) :
    s.RuleLaws id r rule := by
  have hready : s.Ready id r.config := ⟨hs, r, hr, rfl⟩
  have ⟨r', hr', hfind⟩ := hf
  have hfits := (hs.wellKept _ r' hr').fits hfind
  have hpos := ((hs.wellKept _ r' hr').order_le hfind).1
  obtain rfl := hfits.kind_eq
  obtain rfl := hfits.order_eq
  have hkept : r.owns rule = true → s.Holds id rule.value.kind rule.value.order rule :=
    holds_of_owns hs hr hf
  refine ⟨coincide_changeOrder hready, fun hown between => ?_, fun {side q} hside hmax hq => ?_,
    fun hown n hn => ?_, fun hown => ?_⟩
  · obtain ⟨s', hstep⟩ :=
      step_rule_of_holds (hs.after between).wellKept (holds_after (hkept hown) between)
    exact ⟨rule, s', (step_changeOrder_eq hfits.ne_arbitrary).trans hstep, rfl⟩
  · have hadmits : r.config.Admits side rule.value.order :=
      ⟨Kind.sideKind_ne_arbitrary hside, hpos, hmax,
        Kind.coordCount_sideKind_lt hside hfits.pointCount_eq hfits.npoints_lt⟩
    exact coincide_sideRule_changeOrder hready hside hadmits hq
  · obtain ⟨side, hdim, halways⟩ := always_descent hs (hkept hown) hn
    refine halways.mono fun s' answer ⟨⟨r', hr', hfind⟩, hw⟩ => ?_
    have hfits := (hw _ r' hr').fits hfind
    exact ⟨hfits.order_eq, Option.some.inj (hfits.dim_eq.symm.trans hdim)⟩
  · obtain ⟨side, hdim, halways⟩ :=
      always_descent hs (hkept hown) (Nat.sub_lt hfits.dim_pos Nat.one_pos)
    obtain rfl : side = .line := by
      rw [Nat.sub_sub_self hfits.dim_pos] at hdim
      cases side <;> cases hdim
      rfl
    exact halways.mono fun s' answer ⟨hf', hw'⟩ => ⟨hf', fun between =>
      step_sideRule_line (after_induction hw' (fun hw h => h.wellKept hw) between)
        (holds_after hf' between)⟩

/-! ## Runs -/

/-- Laws of side rules and changes of order in every session that requests lead to, for the
registry `r` and a rule that it or another registry built, as far as the rules fit their tables.

* Of two changes of order only the last counts, and at its own order a rule of `r` is itself.
* A change of order and the step to the sides can be exchanged.
* A rule of `r` has side rules of its order for every dimension below its own, one after another.
  The last of them is the line rule of `r`, and the side rule of that is refused. -/
theorem ruleLaws_of_reachable {id' : RegistryId} {r : Registry} (hs : s.Reachable)
    (hr : s.registries[id]? = some r) (hrule : s.Holds id' kind order rule) :
    s.RuleLaws id r rule :=
  ruleLaws_of_sound hs.sound hr hrule

/-- A registry that keeps a cube rule of its own is asked with the cube rule of another: the order
can be changed before or after the step to the sides. Its own cube rule leads down to its line
rule in two steps. -/
theorem ruleLaws_of_two_cubes :
    ∃ (s : Session) (rule own : Shared FloatRule),
      s = ({} : Session).after [.hexahedron 0 2, .newRegistry none, .hexahedron 1 3] ∧
      s.Holds 0 .hexahedron 2 rule ∧ s.Holds 1 .hexahedron 3 own ∧
      s.Coincide 1 rule [.changeOrder 3, .sideRule] [.sideRule, .changeOrder 3] ∧
      Always 1 (fun _ answer => answer = own) [.changeOrder 3] s own ∧
      Always 1 (fun s' answer => s'.Holds 1 .line 3 answer) [.sideRule, .sideRule] s own := by
  obtain ⟨s, hs⟩ :
      ∃ s, s = ({} : Session).after [.hexahedron 0 2, .newRegistry none, .hexahedron 1 3] :=
    ⟨_, rfl⟩
  obtain ⟨rule, own, r, hr, hrule, hown, hmax, hkind, horder, horder', hdim, howns⟩ :
      ∃ (rule own : Shared FloatRule) (r : Registry), s.registries[1]? = some r ∧
        s.Holds 0 .hexahedron 2 rule ∧ s.Holds 1 .hexahedron 3 own ∧ r.config.maxOrder = 64 ∧
        rule.value.kind = .hexahedron ∧ rule.value.order = 2 ∧ own.value.order = 3 ∧
        own.value.dim = 3 ∧ r.owns own = true := by
    subst hs
    exact ⟨_, _, _, rfl, ⟨_, rfl, rfl⟩, ⟨_, rfl, rfl⟩, rfl, rfl, rfl, rfl, rfl, rfl⟩
  have hreach : s.Reachable := hs ▸ Reachable.start.after _
  have hlaws := ruleLaws_of_reachable hreach hr hrule
  have hlaws' := ruleLaws_of_reachable hreach hr hown
  have hadmits : r.config.Admits rule.value.kind 3 :=
    ⟨by rw [hkind]; decide, by decide, by rw [hmax]; decide, by rw [hkind]; decide⟩
  refine ⟨s, rule, own, hs, hrule, hown, ?_, ?_, ?_⟩
  · exact hlaws.sideRule_changeOrder (by rw [hkind]; rfl) (by rw [horder, hmax]; decide) hadmits
  · have hself := hlaws'.changeOrder_self howns
    rwa [horder'] at hself
  · have hline := hlaws'.sideRule_line howns
    rw [horder', hdim] at hline
    exact hline.mono fun _ _ h => h.1

end Session

end Cubature
