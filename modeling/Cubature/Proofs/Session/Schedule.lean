import Cubature.Proofs.Registry.Schedule
import Cubature.Proofs.Session.Transition

/-!
# Warming up a registry of a session

A registry may make the requests of warming up in any order (`Session.WarmsUp`). Whether it
succeeds, which keys it adds and what the rules consist of is the same for all orders, and it fails
only as the request for one of the pairs does (`Session.WarmUpTransition`). This holds in every
session that requests lead to, where earlier warming up was done in any order as well
(`Session.warmUp_of_reachable`).
-/

namespace Cubature.Session

variable {s s' s'' : Session} {id : RegistryId} {r : Registry} {kinds : List Kind}
  {orders : List Nat} {answer : Except Failure Answer}

/-- Warming up the registry at a place can be answered in a way and lead to a session: by making
the requests in some order. -/
def WarmsUp (s : Session) (id : RegistryId) (kinds : List Kind) (orders : List Nat)
    (answer : Except Failure Answer) (s' : Session) : Prop :=
  ∃ r outcome w, s.registries[id]? = some r ∧
    Workshop.WarmsUp ⟨r, s.journal⟩ kinds orders outcome w ∧
    answer = (outcome.map fun _ => .done) ∧
    s' = { s with registries := s.registries.set id w.registry, journal := w.journal }

/-- A session that requests lead to, where warming up is done in any order. -/
inductive Reachable : Session → Prop where
  | start : Reachable {}
  | step {s : Session} (request : Request) (h : Reachable s) : Reachable (s.step request).2
  | warmUp {s s' : Session} {id : RegistryId} {kinds : List Kind} {orders : List Nat}
    {answer : Except Failure Answer} (h : Reachable s) (hw : s.WarmsUp id kinds orders answer s') :
    Reachable s'

/-- What warming up in any order has in common, for the registry `r` at a place: an answer and the
session afterwards are given. -/
structure WarmUpTransition (s : Session) (id : RegistryId) (r : Registry) (kinds : List Kind)
    (orders : List Nat) (answer : Except Failure Answer) (s' : Session) : Prop where
  /-- It succeeds exactly if there is nothing to build or nothing that is refused. -/
  done_iff : answer = .ok .done ↔ kinds = [] ∨ orders = [] ∨
    .arbitrary ∉ kinds ∧ ∀ order ∈ orders, 1 ≤ order ∧ order ≤ r.config.maxOrder
  /-- In any case every rule that was kept stays. -/
  holds : ∀ {id' kind order rule}, s.Holds id' kind order rule → s'.Holds id' kind order rule
  /-- In any case no keys are added but those of the pairs. -/
  keeps : ∀ {id' kind order}, s'.Keeps id' kind order → s.Keeps id' kind order ∨
    id' = id ∧ ∃ kind' ∈ kinds, ∃ order' ∈ orders, (kind, order) ∈ Registry.addedKeys kind' order'
  /-- On success all keys of the pairs are added. -/
  keeps_of_done : answer = .ok .done → ∀ {id' kind order}, s'.Keeps id' kind order ↔
    s.Keeps id' kind order ∨ id' = id ∧
      ∃ kind' ∈ kinds, ∃ order' ∈ orders, (kind, order) ∈ Registry.addedKeys kind' order'
  /-- On success in two ways the rules consist of the same. -/
  contents : answer = .ok .done → ∀ {s''}, s.WarmsUp id kinds orders (.ok .done) s'' →
    ∀ {id' kind order rule rule'}, s'.Holds id' kind order rule →
      s''.Holds id' kind order rule' → rule.value = rule'.value
  /-- On success once more is successful, and changes no registry. -/
  again : answer = .ok .done → ∀ {answer' s''}, s'.WarmsUp id kinds orders answer' s'' →
    answer' = .ok .done ∧ s''.registries = s'.registries
  /-- A failure is that of the request for one of the pairs. -/
  error : ∀ {cause}, answer = .error cause → ∃ kind ∈ kinds, ∃ order ∈ orders,
    (s.step (.rule id kind order)).1 = .error cause

/-- The order of the lists is one of the ways. -/
theorem warmsUp_step (hr : s.registries[id]? = some r) (kinds : List Kind) (orders : List Nat) :
    s.WarmsUp id kinds orders (s.step (.warmUp id kinds orders)).1
      (s.step (.warmUp id kinds orders)).2 := by
  have hstep : s.step (.warmUp id kinds orders) =
      (((Registry.warmUp kinds orders).run ⟨r, s.journal⟩).1.map fun _ => .done,
        { s with
          registries := s.registries.set id
            ((Registry.warmUp kinds orders).run ⟨r, s.journal⟩).2.registry
          journal := ((Registry.warmUp kinds orders).run ⟨r, s.journal⟩).2.journal }) := by
    simp only [step, Request.perform, run_bind, run_within, hr]
    generalize (Registry.warmUp kinds orders).run ⟨r, s.journal⟩ = out
    obtain ⟨_ | _, w⟩ := out <;> rfl
  rw [hstep]
  exact ⟨r, _, _, hr, Workshop.warmsUp_warmUp ⟨r, s.journal⟩ kinds orders, rfl, rfl⟩

/-- Every order of all requests is one of the ways. -/
theorem exists_warmsUp {made : List RuleKey} (hr : s.registries[id]? = some r)
    (hmade : made.Perm (Registry.pairs kinds orders)) :
    ∃ answer s', s.WarmsUp id kinds orders answer s' ∧ s'.registries = s.registries.set id
      (Registry.attempts made (Workshop.announced ⟨r, s.journal⟩ kinds orders)).2.registry := by
  obtain ⟨outcome, h⟩ := Workshop.exists_warmsUp (w := ⟨r, s.journal⟩) hmade
  exact ⟨_, _, ⟨r, outcome, _, hr, h, rfl, rfl⟩, rfl⟩

theorem WarmsUp.effect (h : s.WarmsUp id kinds orders answer s') : s.Effect (some id) s' := by
  obtain ⟨r, outcome, w, hr, h, rfl, rfl⟩ := h
  exact .work hr h.leads

/-! ## Reachable sessions -/

/-- What every effect keeps is kept. -/
theorem Reachable.induction {P : Session → Prop} (h : s.Reachable) (hstart : P {})
    (keep : ∀ {s s' : Session} {target : Option RegistryId}, P s → s.Effect target s' → P s') :
    P s := by
  induction h with
  | start => exact hstart
  | step request _ ih => exact keep ih (step_effect _ request)
  | warmUp _ hw ih => exact keep ih hw.effect

theorem Reachable.after (h : s.Reachable) (requests : List Request) :
    (s.after requests).Reachable := by
  induction requests generalizing s with
  | nil => exact h
  | cons request requests ih => exact ih (h.step request)

theorem Reachable.sound (h : s.Reachable) : s.Sound :=
  h.induction sound_start fun hs h => h.sound hs

theorem Reachable.determined (h : s.Reachable) : s.Everywhere Registry.Determined :=
  h.induction (everywhere_start Registry.determined_empty) fun hs h =>
    h.everywhere Registry.determined_empty (fun h => h.determined) hs

/-! ## Warming up -/

theorem map_done_eq_ok {outcome : Except Failure Unit} :
    (outcome.map fun _ => Answer.done) = .ok .done ↔ outcome = .ok () := by
  cases outcome <;> simp [Except.map]

theorem map_done_eq_error {outcome : Except Failure Unit} {cause : Failure} :
    (outcome.map fun _ => Answer.done) = .error cause ↔ outcome = .error cause := by
  cases outcome <;> simp [Except.map]

/-- What warming up does in the registry at the place. -/
theorem WarmsUp.workshop (h : s.WarmsUp id kinds orders answer s')
    (hr : s.registries[id]? = some r) :
    ∃ outcome w, Workshop.WarmsUp ⟨r, s.journal⟩ kinds orders outcome w ∧
      answer = (outcome.map fun _ => .done) ∧
      s' = { s with registries := s.registries.set id w.registry, journal := w.journal } := by
  obtain ⟨r', outcome, w, hr', h⟩ := h
  obtain rfl := Option.some.inj (hr.symm.trans hr')
  exact ⟨outcome, w, h⟩

theorem WarmsUp.workshop_of_done (h : s.WarmsUp id kinds orders (.ok .done) s')
    (hr : s.registries[id]? = some r) :
    ∃ w, Workshop.WarmsUp ⟨r, s.journal⟩ kinds orders (.ok ()) w ∧
      s' = { s with registries := s.registries.set id w.registry, journal := w.journal } := by
  obtain ⟨outcome, w, h, hdone, hs'⟩ := h.workshop hr
  obtain rfl := map_done_eq_ok.mp hdone.symm
  exact ⟨w, h, hs'⟩

section Transition

variable (hs : s.WellKept) (hr : s.registries[id]? = some r)
  (hsize : Registry.FitTables r.config (Registry.pairs kinds orders))

include hs hr hsize

theorem WarmsUp.keeps_cases {id' : RegistryId} {kind : Kind} {order : Nat}
    (h : s.WarmsUp id kinds orders answer s') (hkept : s'.Keeps id' kind order) :
    s.Keeps id' kind order ∨ id' = id ∧
      ∃ kind' ∈ kinds, ∃ order' ∈ orders, (kind, order) ∈ Registry.addedKeys kind' order' := by
  obtain ⟨outcome, w, hw, rfl, rfl⟩ := h.workshop hr
  rw [keeps_worked (List.getElem?_eq_some_iff.mp hr).1 rfl] at hkept
  split at hkept
  · rename_i hid
    subst hid
    rw [keeps_iff hr]
    exact (hw.isSome_cases hsize (hs _ _ hr) hkept).imp_right fun hadded => ⟨rfl, hadded⟩
  · exact .inl hkept

theorem WarmsUp.keeps_iff_of_done {id' : RegistryId} {kind : Kind} {order : Nat}
    (h : s.WarmsUp id kinds orders (.ok .done) s') :
    s'.Keeps id' kind order ↔ s.Keeps id' kind order ∨ id' = id ∧
      ∃ kind' ∈ kinds, ∃ order' ∈ orders, (kind, order) ∈ Registry.addedKeys kind' order' := by
  obtain ⟨w, hw, rfl⟩ := h.workshop_of_done hr
  rw [keeps_worked (List.getElem?_eq_some_iff.mp hr).1 rfl]
  split
  · rename_i hid
    subst hid
    rw [keeps_iff hr, hw.isSome_iff hsize (hs _ _ hr)]
    simp
  · rename_i hid
    simp [Ne.symm hid]

/-- The rules of the registry consist of the same, and those of the others are not touched. -/
theorem WarmsUp.value_eq {id' : RegistryId} {kind : Kind} {order : Nat}
    {rule rule' : Shared FloatRule} (hcontents : s.Everywhere Registry.Determined)
    (h : s.WarmsUp id kinds orders (.ok .done) s') (h' : s.WarmsUp id kinds orders (.ok .done) s'')
    (hf : s'.Holds id' kind order rule) (hf' : s''.Holds id' kind order rule') :
    rule.value = rule'.value := by
  have hlt := (List.getElem?_eq_some_iff.mp hr).1
  obtain ⟨w, hw, rfl⟩ := h.workshop_of_done hr
  obtain ⟨w', hw', rfl⟩ := h'.workshop_of_done hr
  rw [holds_worked hlt rfl] at hf hf'
  split at hf
  · rename_i hid
    subst hid
    rw [if_pos rfl] at hf'
    have hvalue : (w.registry.find? kind order).map Shared.value =
        (w'.registry.find? kind order).map Shared.value :=
      hw.contents_eq (hs _ _ hr) (hcontents _ _ hr) hsize hw'
    rw [hf, hf'] at hvalue
    exact Option.some.inj hvalue
  · rename_i hid
    rw [if_neg hid] at hf'
    rw [hf.unique hf']

theorem WarmsUp.done_again {answer' : Except Failure Answer}
    (h : s.WarmsUp id kinds orders (.ok .done) s') (h' : s'.WarmsUp id kinds orders answer' s'') :
    answer' = .ok .done ∧ s''.registries = s'.registries := by
  have hlt := (List.getElem?_eq_some_iff.mp hr).1
  obtain ⟨w, hw, rfl⟩ := h.workshop_of_done hr
  obtain ⟨outcome', w', hw', rfl, rfl⟩ := h'.workshop (List.getElem?_set_self hlt)
  obtain ⟨rfl, hsame⟩ := hw.again hsize (hs _ _ hr) hw'
  exact ⟨rfl, by rw [hsame, List.set_set]⟩

/-- Warming up in any order has the one transition. -/
theorem WarmsUp.transition (hcontents : s.Everywhere Registry.Determined)
    (h : s.WarmsUp id kinds orders answer s') :
    s.WarmUpTransition id r kinds orders answer s' where
  done_iff := by
    obtain ⟨outcome, w, hw, rfl, -⟩ := h.workshop hr
    rw [map_done_eq_ok, hw.ok_iff hsize, Registry.accept_pairs_iff]
  holds := h.effect.holds
  keeps := h.keeps_cases hs hr hsize
  keeps_of_done := by
    rintro rfl
    exact h.keeps_iff_of_done hs hr hsize
  contents := by
    rintro rfl s'' h' id' kind order rule rule' hf hf'
    exact h.value_eq hs hr hsize hcontents h' hf hf'
  again := by
    rintro rfl answer' s'' h'
    exact h.done_again hs hr hsize h'
  error := by
    rintro cause rfl
    obtain ⟨outcome, w, hw, hfail, -⟩ := h.workshop hr
    obtain rfl := map_done_eq_error.mp hfail.symm
    obtain ⟨kind, hkind, order, horder, hacc⟩ := hw.error hsize
    exact ⟨kind, hkind, order, horder, congrArg Prod.fst (step_rule_refused hr hacc)⟩

end Transition

/-- Warming up over every run, in which warming up is done in any order, as far as the rules fit
their tables.

* The order of the lists is one of the orders, and so is every order of all requests.
* Whatever the order, it succeeds exactly if there is nothing to build or nothing is refused. Every
  rule that was kept stays, and on success the keys of all pairs are added with contents that do
  not depend on the order, so that it changes nothing a second time. A failure is that of the
  request for one of the pairs, and then no other keys than those of the pairs are added. -/
theorem warmUp_of_reachable (hs : s.Reachable) (hr : s.registries[id]? = some r)
    (kinds : List Kind) (orders : List Nat)
    (hsize : ∀ kind ∈ kinds, ∀ order ∈ orders, order ≤ r.config.maxOrder →
      kind.coordCount order < Size.tableLimit) :
    s.WarmsUp id kinds orders (s.step (.warmUp id kinds orders)).1
      (s.step (.warmUp id kinds orders)).2 ∧
    (∀ made : List RuleKey, made.Perm (Registry.pairs kinds orders) →
      ∃ answer s', s.WarmsUp id kinds orders answer s' ∧ s'.registries = s.registries.set id
        (Registry.attempts made (Workshop.announced ⟨r, s.journal⟩ kinds orders)).2.registry) ∧
    ∀ answer s', s.WarmsUp id kinds orders answer s' →
      s.WarmUpTransition id r kinds orders answer s' := by
  have hfit : Registry.FitTables r.config (Registry.pairs kinds orders) := by
    rintro ⟨kind, order⟩ hkey
    obtain ⟨hkind, horder⟩ := Registry.mem_pairs.mp hkey
    exact hsize kind hkind order horder
  exact ⟨warmsUp_step hr kinds orders, fun made hmade => exists_warmsUp hr hmade,
    fun answer s' h => h.transition hs.sound.wellKept hr hfit hs.determined⟩

/-- Cube and line rules of one order, where the line rule is added for either, and line rules one
of which is refused. -/
theorem warmUp_of_cube_and_line :
    (∃ s', (({} : Session).after [.line 0 3]).WarmsUp 0 [.hexahedron, .line] [2] (.ok .done) s') ∧
    (∀ answer s', (({} : Session).after [.line 0 3]).WarmsUp 0 [.hexahedron, .line] [2] answer s' →
      answer = .ok .done ∧ s'.Keeps 0 .line 2 ∧ s'.Keeps 0 .line 3 ∧
        ¬s'.Keeps 0 .quadrilateral 2) ∧
    ∀ answer s', (({} : Session).after [.line 0 3]).WarmsUp 0 [.line] [4, 65] answer s' →
      answer ≠ .ok .done ∧ s'.Keeps 0 .line 3 ∧ ¬s'.Keeps 0 .line 2 := by
  obtain ⟨r, hr, hmax⟩ : ∃ r, (({} : Session).after [.line 0 3]).registries[0]? = some r ∧
      r.config.maxOrder = 64 := ⟨_, rfl, rfl⟩
  have hs : (({} : Session).after [.line 0 3]).Reachable := Reachable.start.after _
  have hold : (({} : Session).after [.line 0 3]).Keeps 0 .line 3 := ⟨_, _, rfl, rfl⟩
  have hfree : ∀ kind, ¬(({} : Session).after [.line 0 3]).Keeps 0 kind 2 := by
    rintro kind ⟨_, _, hr, hf⟩
    cases hr
    cases kind <;> cases hf
  have hsize : ∀ kind ∈ [Kind.hexahedron, .line], ∀ order ∈ [2, 4, 65],
      kind.coordCount order < Size.tableLimit := by decide
  obtain ⟨hstep, -, hdone⟩ := warmUp_of_reachable hs hr [.hexahedron, .line] [2]
    fun kind hkind order horder _ => hsize kind hkind order (by simp_all)
  obtain ⟨-, -, hfail⟩ := warmUp_of_reachable hs hr [.line] [4, 65]
    fun kind hkind order horder _ => hsize kind (by simp_all) order (by simp_all)
  have hok : ∀ answer s',
      (({} : Session).after [.line 0 3]).WarmsUp 0 [.hexahedron, .line] [2] answer s' →
        answer = .ok .done :=
    fun answer s' h => (hdone answer s' h).done_iff.mpr (.inr (.inr (by simp [hmax])))
  refine ⟨⟨_, hok _ _ hstep ▸ hstep⟩, fun answer s' h => ?_, fun answer s' h => ?_⟩
  · have hkeys := @(hdone answer s' h).keeps_of_done (hok answer s' h)
    exact ⟨hok answer s' h, hkeys.mpr (.inr ⟨rfl, _, .head _, _, .head _, by decide⟩),
      hkeys.mpr (.inl hold), fun hquad => (hkeys.mp hquad).elim (hfree _) (by decide)⟩
  · refine ⟨fun hans => ?_, ?_, fun hline => ?_⟩
    · have := (hfail answer s' h).done_iff.mp hans
      simp [hmax] at this
    · exact hold.imp fun rule hf => (hfail answer s' h).holds hf
    · exact ((hfail answer s' h).keeps hline).elim (hfree _) (by decide)

end Cubature.Session
