import Cubature.Proofs.Session.Effect

/-!
# Kept rules over a run

What every run of a session keeps of its registries. A request leaves the registries alone, opens
one, or works on one (`Session.RegistryEffect`), and from these three cases follow

* `Effect.everywhere`, `Effect.wellKept`: what registries without rules have and moves keep holds in
  all registries, among it that they are well kept.
* `Effect.holds`, `Effect.holds_new`: a kept rule stays kept, and a rule that is new is in the
  registry that the request works on and has a new number.
* `Session.Distinct`, `Effect.distinct`: no two places and keys keep the same rule.
* `Effect.reports`: the keys that became kept are those reported as built.

The main statement is `wellKept_of_run`: every registry of every reachable session is well kept.
-/

namespace Cubature

namespace Session

variable {s s' : Session} {target : Option RegistryId} {id id' : RegistryId} {kind kind' : Kind}
  {order order' : Nat} {rule rule' : Shared FloatRule}

/-- The registry at a place keeps a rule under a kind and an order. -/
def Holds (s : Session) (id : RegistryId) (kind : Kind) (order : Nat) (rule : Shared FloatRule) :
    Prop :=
  ∃ r, s.registries[id]? = some r ∧ r.find? kind order = some rule

theorem holds_iff {r : Registry} (hr : s.registries[id]? = some r) :
    s.Holds id kind order rule ↔ r.find? kind order = some rule := by
  simp [Holds, hr]

theorem Holds.unique (h : s.Holds id kind order rule) (h' : s.Holds id kind order rule') :
    rule = rule' := by
  obtain ⟨r, hr, hf⟩ := h
  rw [holds_iff hr, hf] at h'
  exact Option.some.inj h'

theorem holds_congr (hregs : s'.registries = s.registries) :
    s'.Holds id kind order rule ↔ s.Holds id kind order rule := by
  unfold Holds
  rw [hregs]

/-- What a request can do to the registries. -/
inductive RegistryEffect (s : Session) : Option RegistryId → Session → Prop where
  | same {target : Option RegistryId} {s' : Session} (hregs : s'.registries = s.registries)
    (hnext : s.journal.nextId ≤ s'.journal.nextId) (hlog : s'.journal.log = s.journal.log) :
    RegistryEffect s target s'
  | opened {config : Config} {s' : Session}
    (hregs : s'.registries = s.registries ++ [({ config } : Registry)])
    (hjournal : s'.journal = s.journal) : RegistryEffect s none s'
  | worked {id : RegistryId} {r : Registry} {w : Workshop} {s' : Session}
    {events : List Event} (hr : s.registries[id]? = some r)
    (hw : Workshop.Leads ⟨r, s.journal⟩ w) (hregs : s'.registries = s.registries.set id w.registry)
    (hnext : w.journal.nextId ≤ s'.journal.nextId)
    (hlog : s'.journal.log.toList = w.journal.log.toList ++ events)
    (hevents : ∀ e ∈ events, e.builtKey? = none) : RegistryEffect s (some id) s'

theorem Effect.onRegistries (h : s.Effect target s') : s.RegistryEffect target s' := by
  cases h with
  | idle | newCatalog => exact .same rfl (Nat.le_refl _) rfl
  | issue => exact .same rfl (Nat.le_succ _) rfl
  | newRegistry => exact .opened rfl rfl
  | work hr hw =>
    exact .worked hr hw rfl (Nat.le_refl _) (List.append_nil _).symm (fun _ h => nomatch h)
  | newSet _ hr _ hw =>
    refine .worked hr hw rfl (Nat.le_succ _) (Array.toList_push ..) fun e he => ?_
    rw [List.mem_singleton.mp he]
    rfl

theorem Effect.nextId_le (h : s.Effect target s') : s.journal.nextId ≤ s'.journal.nextId := by
  cases h.onRegistries with
  | same _ hnext => exact hnext
  | opened _ hjournal => exact Nat.le_of_eq (congrArg Journal.nextId hjournal.symm)
  | worked _ hw _ hnext => exact Nat.le_trans hw.grown.nextId_le hnext

/-! ## Every registry -/

/-- Every registry of the session has a property. -/
def Everywhere (P : Registry → Prop) (s : Session) : Prop :=
  ∀ (id : RegistryId) (r : Registry), s.registries[id]? = some r → P r

section Everywhere

variable {P : Registry → Prop} (hempty : ∀ config : Config, P { config })

include hempty

theorem everywhere_start : ({} : Session).Everywhere P := by
  intro id r hr
  obtain rfl : r = {} := by
    cases id with
    | zero => exact (Option.some.inj hr).symm
    | succ => cases hr
  exact hempty _

variable (hmoves : ∀ {w w' : Workshop}, w.Leads w' → P w.registry → P w'.registry)

include hmoves

/-- What registries without rules have and moves keep, all registries go on to have. -/
theorem Effect.everywhere (h : s.Effect target s') (hs : s.Everywhere P) : s'.Everywhere P := by
  intro id r hr
  cases h.onRegistries with
  | same hregs =>
    rw [hregs] at hr
    exact hs id r hr
  | opened hregs =>
    rw [hregs, List.getElem?_append] at hr
    split at hr
    · exact hs id r hr
    · rw [List.getElem?_singleton] at hr
      split at hr <;> cases hr
      exact hempty _
  | worked hr₀ hw hregs =>
    rw [hregs, List.getElem?_set] at hr
    split at hr
    · split at hr <;> cases hr
      exact hmoves hw (hs _ _ hr₀)
    · exact hs id r hr

/-- It holds in every registry of every run. -/
theorem everywhere_after (requests : List Request) : (({} : Session).after requests).Everywhere P :=
  after_induction (everywhere_start hempty) (fun hs h => h.everywhere hempty hmoves hs) requests

end Everywhere

/-- Every registry of the session is well kept. -/
def WellKept (s : Session) : Prop :=
  ∀ (id : RegistryId) (r : Registry), s.registries[id]? = some r → r.WellKept

theorem wellKept_start : ({} : Session).WellKept := everywhere_start Registry.wellKept_empty

theorem Effect.wellKept (h : s.Effect target s') (hs : s.WellKept) : s'.WellKept :=
  h.everywhere Registry.wellKept_empty (fun h => h.wellKept) hs

/-! ## Growth -/

/-- What a registry that was worked on keeps. -/
theorem holds_worked {w : Workshop} (hid : id < s.registries.length)
    (hregs : s'.registries = s.registries.set id w.registry) :
    s'.Holds id' kind order rule ↔
      if id = id' then w.registry.find? kind order = some rule
      else s.Holds id' kind order rule := by
  unfold Holds
  rw [hregs]
  split
  · rename_i h
    subst h
    simp [List.getElem?_set_self hid]
  · rename_i h
    rw [List.getElem?_set_ne h]

/-- A new registry keeps nothing. -/
theorem holds_opened {config : Config}
    (hregs : s'.registries = s.registries ++ [({ config } : Registry)]) :
    s'.Holds id kind order rule ↔ s.Holds id kind order rule := by
  unfold Holds
  rw [hregs]
  rcases Nat.lt_or_ge id s.registries.length with hid | hid
  · rw [List.getElem?_append_left hid]
  · rw [List.getElem?_append_right hid, List.getElem?_eq_none hid, List.getElem?_singleton]
    constructor
    · rintro ⟨r, hr, hf⟩
      split at hr <;> cases hr
      cases hf
    · rintro ⟨r, hr, -⟩
      cases hr

/-- A registry stays in its place and keeps all that it kept. -/
theorem Effect.registry_extends {r : Registry} (h : s.Effect target s')
    (hr : s.registries[id]? = some r) : ∃ r', s'.registries[id]? = some r' ∧ r'.Extends r := by
  have hlt := (List.getElem?_eq_some_iff.mp hr).1
  cases h.onRegistries with
  | same hregs => exact ⟨r, by rw [hregs, hr], fun _ _ _ hf => hf⟩
  | opened hregs =>
    exact ⟨r, by rw [hregs, List.getElem?_append_left hlt, hr], fun _ _ _ hf => hf⟩
  | @worked i r₀ w _ _ hr₀ hw hregs =>
    by_cases hid : i = id
    · subst hid
      obtain rfl := Option.some.inj (hr.symm.trans hr₀)
      exact ⟨_, by rw [hregs, List.getElem?_set_self hlt], fun _ _ _ hf => hw.grown.find?_eq hf⟩
    · exact ⟨r, by rw [hregs, List.getElem?_set_ne hid, hr], fun _ _ _ hf => hf⟩

/-- A kept rule stays kept. -/
theorem Effect.holds (h : s.Effect target s') (hf : s.Holds id kind order rule) :
    s'.Holds id kind order rule := by
  obtain ⟨r, hr, hf⟩ := hf
  obtain ⟨r', hr', hext⟩ := h.registry_extends hr
  exact ⟨r', hr', hext _ _ _ hf⟩

/-- A rule that is new is in the registry that was worked on and has a new number. -/
theorem Effect.holds_new (h : s.Effect target s') (hf : s'.Holds id kind order rule) :
    s.Holds id kind order rule ∨
      target = some id ∧ s.journal.nextId ≤ rule.id ∧ rule.id < s'.journal.nextId := by
  cases h.onRegistries with
  | same hregs => exact .inl ((holds_congr hregs).mp hf)
  | opened hregs => exact .inl ((holds_opened hregs).mp hf)
  | worked hr hw hregs hnext =>
    rw [holds_worked (List.getElem?_eq_some_iff.mp hr).1 hregs] at hf
    split at hf
    · rename_i hid
      subst hid
      rcases hw.grown.new hf with hold | ⟨hlo, hhi⟩
      · exact .inl ((holds_iff hr).mpr hold)
      · exact .inr ⟨rfl, hlo, Nat.lt_of_lt_of_le hhi hnext⟩
    · exact .inl hf

/-! ## Identity -/

/-- Kept rules have issued numbers, and no two places and keys keep the same rule. -/
structure Distinct (s : Session) : Prop where
  id_lt : ∀ {id kind order rule}, s.Holds id kind order rule → rule.id < s.journal.nextId
  key_eq : ∀ {id kind order rule id' kind' order' rule'}, s.Holds id kind order rule →
    s.Holds id' kind' order' rule' → rule.id = rule'.id →
      id = id' ∧ kind = kind' ∧ order = order'

theorem Distinct.workshop {r : Registry} (hs : s.Distinct) (hr : s.registries[id]? = some r) :
    Workshop.Distinct ⟨r, s.journal⟩ where
  id_lt hf := hs.id_lt ((holds_iff hr).mpr hf)
  key_eq hf hf' hid := (hs.key_eq ((holds_iff hr).mpr hf) ((holds_iff hr).mpr hf') hid).2

/-- Two new rules are in the registry that was worked on, where moves keep them apart. -/
theorem Effect.key_eq_of_new (h : s.Effect target s') (hs : s.Distinct)
    (hid : target = some id) (hf : s'.Holds id kind order rule)
    (hf' : s'.Holds id kind' order' rule') (heq : rule.id = rule'.id) :
    kind = kind' ∧ order = order' := by
  cases h.onRegistries with
  | same hregs =>
    rw [holds_congr hregs] at hf hf'
    exact (hs.key_eq hf hf' heq).2
  | opened => cases hid
  | worked hr hw hregs =>
    cases hid
    have hlt := (List.getElem?_eq_some_iff.mp hr).1
    rw [holds_worked hlt hregs, if_pos rfl] at hf hf'
    exact (hw.distinct (hs.workshop hr)).key_eq hf hf' heq

theorem Effect.distinct (h : s.Effect target s') (hs : s.Distinct) : s'.Distinct where
  id_lt hf := by
    rcases h.holds_new hf with hold | ⟨-, -, hlt⟩
    · exact Nat.lt_of_lt_of_le (hs.id_lt hold) h.nextId_le
    · exact hlt
  key_eq hf hf' hid := by
    rcases h.holds_new hf with hold | ⟨htarget, hlo, -⟩
    · rcases h.holds_new hf' with hold' | ⟨-, hlo', -⟩
      · exact hs.key_eq hold hold' hid
      · have := hs.id_lt hold
        omega
    · rcases h.holds_new hf' with hold' | ⟨htarget', -, -⟩
      · have := hs.id_lt hold'
        omega
      · obtain rfl := Option.some.inj (htarget.symm.trans htarget')
        exact ⟨rfl, h.key_eq_of_new hs htarget hf hf' hid⟩

theorem distinct_start : ({} : Session).Distinct := by
  have : ∀ {id kind order rule}, ¬({} : Session).Holds id kind order rule := by
    rintro (_ | _) kind order rule ⟨r, hr, hf⟩ <;> cases hr
    cases hf
  exact ⟨fun hf => absurd hf this, fun hf => absurd hf this⟩

/-! ## Reports -/

/-- The registry at a place keeps some rule under a kind and an order. -/
def Keeps (s : Session) (id : RegistryId) (kind : Kind) (order : Nat) : Prop :=
  ∃ rule, s.Holds id kind order rule

theorem keeps_iff {r : Registry} (hr : s.registries[id]? = some r) :
    s.Keeps id kind order ↔ (r.find? kind order).isSome := by
  simp [Keeps, holds_iff hr, Option.isSome_iff_exists]

/-- The keys of a registry that was worked on. -/
theorem keeps_worked {w : Workshop} (hid : id < s.registries.length)
    (hregs : s'.registries = s.registries.set id w.registry) :
    s'.Keeps id' kind order ↔
      if id = id' then (w.registry.find? kind order).isSome = true
      else s.Keeps id' kind order := by
  unfold Keeps
  simp only [holds_worked hid hregs]
  split
  · rw [Option.isSome_iff_exists]
  · rfl

/-- What a request adds to the log. -/
def reported (s : Session) (request : Request) : List Event :=
  (s.step request).2.journal.log.toList.drop s.journal.log.size

/-- The request works on the registry at a place and reports that it built the rule of a kind and
an order. -/
def Builds (s : Session) (request : Request) (id : RegistryId) (kind : Kind) (order : Nat) : Prop :=
  s.target? request = some id ∧ ∃ npoints, Event.built kind order npoints ∈ s.reported request

theorem mem_builtKeys {events : List Event} :
    (kind, order) ∈ events.filterMap Event.builtKey? ↔
      ∃ npoints, Event.built kind order npoints ∈ events := by
  rw [List.mem_filterMap]
  constructor
  · rintro ⟨e, he, hkey⟩
    cases e <;> cases hkey
    exact ⟨_, he⟩
  · rintro ⟨npoints, he⟩
    exact ⟨_, he, rfl⟩

/-- Reports are added, and the keys that become kept are those reported as built. -/
theorem Effect.reports (h : s.Effect target s') :
    ∃ events, s'.journal.log.toList = s.journal.log.toList ++ events ∧
      ∀ id kind order, s'.Keeps id kind order ↔ s.Keeps id kind order ∨
        target = some id ∧ ∃ npoints, Event.built kind order npoints ∈ events := by
  cases h.onRegistries with
  | same hregs _ hlog => exact ⟨[], by simp [hlog], by simp [Keeps, holds_congr hregs]⟩
  | opened hregs hjournal =>
    exact ⟨[], by simp [hjournal], by simp [Keeps, holds_opened hregs]⟩
  | @worked i r w _ events hr hw hregs _ hlog hevents =>
    obtain ⟨events', hlog', hkeys⟩ := hw.reports
    refine ⟨events' ++ events, by rw [hlog, hlog', List.append_assoc], fun id kind order => ?_⟩
    have hbuilt : ∀ npoints, Event.built kind order npoints ∉ events := by
      intro npoints he
      cases hevents _ he
    simp only [List.mem_append, hbuilt, or_false, ← mem_builtKeys]
    rw [keeps_worked (List.getElem?_eq_some_iff.mp hr).1 hregs]
    split
    · rename_i hid
      subst hid
      simpa [keeps_iff hr] using hkeys kind order
    · rename_i hid
      simp [hid]

theorem keeps_step {request : Request} :
    (s.step request).2.Keeps id kind order ↔
      s.Keeps id kind order ∨ s.Builds request id kind order := by
  obtain ⟨events, hlog, hkeys⟩ := (s.step_effect request).reports
  have : s.reported request = events := by
    rw [reported, hlog, ← Array.length_toList, List.drop_left]
  rw [hkeys, Builds, this]

/-- The keys that are kept after a run are those kept before it and those that one of its requests
built. -/
theorem keeps_after {requests : List Request} :
    (s.after requests).Keeps id kind order ↔ s.Keeps id kind order ∨
      ∃ before request later, requests = before ++ request :: later ∧
        (s.after before).Builds request id kind order :=
  after_iff (P := fun s => s.Keeps id kind order)
    (Q := fun s request => s.Builds request id kind order) (fun _ _ => keeps_step) s requests

/-! ## Runs -/

/-- Every registry of a session that requests lead to, answered or not, keeps each rule at an order
within its limits, with the kind, the order, the points, the dimension, the coordinates and the
weights of its key, and keeps every tensor product beside the line rule of its order. -/
theorem wellKept_of_run (requests : List Request) {id : RegistryId} {r : Registry}
    (hr : (({} : Session).after requests).registries[id]? = some r) : r.WellKept := by
  have hs : (({} : Session).after requests).WellKept :=
    after_induction wellKept_start (fun hs h => h.wellKept hs) requests
  exact hs id r hr

/-- After a cube rule, a square rule of the same order, and a refused order, the registry keeps
one rule of each kind. -/
theorem wellKept_of_hexahedron_run :
    ∃ r : Registry, (({} : Session).after
        [.hexahedron 0 2, .quadrilateral 0 2, .line 0 65]).registries[0]? = some r ∧
      r.count .hexahedron = 1 ∧ r.count .line = 1 ∧ r.WellKept := by
  obtain ⟨r, hr, hcount⟩ : ∃ r : Registry, (({} : Session).after
        [.hexahedron 0 2, .quadrilateral 0 2, .line 0 65]).registries[0]? = some r ∧
      r.count .hexahedron = 1 ∧ r.count .line = 1 := ⟨_, rfl, rfl, rfl⟩
  exact ⟨r, hr, hcount.1, hcount.2, wellKept_of_run _ hr⟩

end Session

end Cubature
