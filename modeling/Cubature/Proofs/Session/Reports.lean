import Cubature.Proofs.Registry.Reports
import Cubature.Proofs.Registry.Schedule
import Cubature.Proofs.Session.Ownership
import Cubature.Proofs.Session.Transition

/-!
# The log of a run

What the requests to one registry add to the log, over a whole run.

* `Session.step_of_ruleKey`: whichever way a rule is asked for, it is the request for its kind and
  order, or it fails and nothing happens.
* `Session.builtCount_reportsTo`: a registry reported one rule as built for each kind and order that
  it keeps, and none for any other.

The main statement is `reports_of_run`.
-/

namespace Cubature

/-- The request asks a registry for one rule. -/
def Request.AsksRule : Request → Prop
  | .rule .. | .line .. | .quadrilateral .. | .triangle .. | .hexahedron .. | .tetrahedron ..
  | .ruleForElement .. | .forStiffness .. | .forMass .. | .sideRule .. | .changeOrder .. => True
  | _ => False

namespace Session

variable {s s' : Session} {id : RegistryId} {r : Registry} {kind : Kind} {order : Nat}
  {request : Request} {requests : List Request} {target : Option RegistryId} {cause : Failure}

/-! ## Guarded actions -/

section Guards

variable {β γ : Type} {x y z : Action β}

/-- The action fails, and nothing happens. -/
def Fails (x : Action β) : Prop := ∀ s, ∃ cause, x.run s = (.error cause, s)

/-- The second action does what the first one does, or it fails and nothing happens. -/
def Guards (x y : Action β) : Prop :=
  ∀ s, y.run s = x.run s ∨ ∃ cause, y.run s = (.error cause, s)

theorem Guards.refl (x : Action β) : Guards x x := fun _ => .inl rfl

theorem Fails.guards (h : Fails y) (x : Action β) : Guards x y := fun s => .inr (h s)

theorem Guards.trans (h : Guards x y) (h' : Guards y z) : Guards x z := by
  intro s
  rcases h' s with heq | hfail
  · rw [heq]
    exact h s
  · exact .inr hfail

theorem Guards.fails (h : Guards x y) (hx : Fails x) : Fails y := by
  intro s
  rcases h s with heq | hfail
  · rw [heq]
    exact hx s
  · exact hfail

theorem Guards.map (h : Guards x y) (f : β → γ) : Guards (f <$> x) (f <$> y) := by
  intro s
  rw [run_map, run_map]
  rcases h s with heq | ⟨cause, hfail⟩
  · exact .inl (by rw [heq])
  · exact .inr ⟨cause, by rw [hfail]; rfl⟩

theorem Fails.map (h : Fails x) (f : β → γ) : Fails (f <$> x) := by
  intro s
  obtain ⟨cause, hfail⟩ := h s
  exact ⟨cause, by rw [run_map, hfail]; rfl⟩

/-- Work that does nothing but fail leaves the session as it is. -/
theorem fails_within (id : RegistryId) (cause : Failure) :
    Fails (within id (Work.ofExcept (.error cause) : Work β)) := by
  intro s
  cases hr : s.registries[id]? with
  | some r => exact ⟨cause, run_within_ofExcept hr _⟩
  | none => exact ⟨.stray, by rw [run_within, hr]⟩

/-- What is done for rules of the global registry only is done, or refused. -/
theorem guards_requireGlobal (rule : Shared FloatRule) (x : Action β) :
    Guards x (requireGlobal rule >>= fun _ => x) := by
  intro s
  rw [run_bind, run_requireGlobal]
  cases s.registries[globalRegistry]? with
  | none => exact .inr ⟨_, rfl⟩
  | some g =>
    by_cases hown : rule.value.kind ≠ .arbitrary ∧ ¬g.owns rule
    · simp only [if_pos hown]
      exact .inr ⟨_, rfl⟩
    · left
      simp only [if_neg hown]

theorem guards_forMass (kind : Kind) (degree : Nat) :
    Guards (within globalRegistry (Registry.rule kind (degree + 1))) (forMass kind degree) := by
  intro s
  have hmass : orderForMass degree = .ok (degree + 1) ∨
      ∃ cause, orderForMass degree = .error cause := by
    unfold orderForMass Size.word
    split
    · exact .inl rfl
    · exact .inr ⟨_, rfl⟩
  rw [forMass, run_bind, run_ofExcept]
  rcases hmass with hmass | ⟨cause, hmass⟩ <;> rw [hmass]
  · exact .inl rfl
  · exact .inr ⟨cause, rfl⟩

end Guards

/-! ## Requests for rules -/

/-- A rule is asked for by its kind and order, behind a guard. -/
theorem guards_perform (hkey : request.ruleKey? = some (id, kind, order)) :
    Guards (Request.rule id kind order).perform request.perform := by
  cases request with
  | rule | line | quadrilateral | triangle | hexahedron | tetrahedron | forStiffness =>
    cases hkey
    exact .refl _
  | ruleForElement id name order =>
    obtain ⟨e, he, hkey⟩ := Option.map_eq_some_iff.mp hkey
    cases hkey
    simp only [Request.perform, Registry.ruleForElement_eq he]
    exact .refl _
  | forMass kind degree =>
    cases hkey
    exact (guards_forMass kind degree).map _
  | sideRule registry rule =>
    obtain ⟨side, hside, hkey⟩ := Option.map_eq_some_iff.mp hkey
    cases hkey
    cases registry with
    | some registry =>
      simp only [Request.perform, Registry.sideRule_eq hside]
      exact .refl _
    | none =>
      simp only [Request.perform, sideRule, Registry.sideRule_eq hside]
      exact (guards_requireGlobal rule _).map _
  | changeOrder registry rule order =>
    cases hkey
    -- A change of order of an arbitrary rule is refused before the registry is asked.
    have hchange : ∀ id, Guards (within id (Registry.rule rule.value.kind order))
        (within id (Registry.changeOrder rule.value order)) := by
      intro id
      unfold Registry.changeOrder
      split
      · exact (fails_within id _).guards _
      · exact .refl _
    cases registry with
    | some registry => exact (hchange registry).map _
    | none => exact ((hchange globalRegistry).trans (guards_requireGlobal rule _)).map _
  | _ => cases hkey

/-- A request for a rule that stands for no kind and order fails, and nothing happens. -/
theorem fails_perform (hasks : request.AsksRule) (hkey : request.ruleKey? = none) :
    Fails request.perform := by
  cases request with
  | rule | line | quadrilateral | triangle | hexahedron | tetrahedron | forStiffness | forMass
  | changeOrder => cases hkey
  | ruleForElement id name order =>
    have hname : ReferenceElement.ofName? name = none := Option.map_eq_none_iff.mp hkey
    have hfail : Registry.ruleForElement name order =
        Work.ofExcept (.error (.rejected (.unknownTopology name))) := by
      rw [Registry.ruleForElement, Kind.ofElement, ReferenceElement.ofName, hname]
      rfl
    simp only [Request.perform, hfail]
    exact (fails_within id _).map _
  | sideRule registry rule =>
    have hside := Registry.sideRule_of_none (Option.map_eq_none_iff.mp hkey)
    cases registry with
    | some registry =>
      simp only [Request.perform, hside]
      exact (fails_within registry _).map _
    | none =>
      simp only [Request.perform, sideRule, hside]
      exact ((guards_requireGlobal rule _).fails (fails_within globalRegistry _)).map _
  | _ => cases hasks

/-- Whichever way a rule is asked for, it is the request for its kind and order, or it fails and
nothing happens. -/
theorem step_of_ruleKey (hkey : request.ruleKey? = some (id, kind, order)) (s : Session) :
    s.step request = s.step (.rule id kind order) ∨ ∃ cause, s.step request = (.error cause, s) :=
  guards_perform hkey s

/-- A request for the rule of a kind and an order that fails leaves the session as it is, if the
rule would fit one table. -/
theorem step_rule_of_error (hsize : kind.coordCount order < Size.tableLimit)
    (h : s.step (.rule id kind order) = (.error cause, s')) : s' = s := by
  cases hr : s.registries[id]? with
  | none =>
    rw [step, Request.perform, run_map, run_within, hr] at h
    exact (Prod.mk.inj h).2.symm
  | some r =>
    rcases Registry.run_rule_cases (w := ⟨r, s.journal⟩) (fun _ => hsize) with
      ⟨cause', hacc, -⟩ | ⟨-, rule, w, hrun⟩
    · rw [step_rule_refused hr hacc] at h
      exact (Prod.mk.inj h).2.symm
    · rw [step_rule_answered hr hrun] at h
      cases h

/-- So does every request for a rule. -/
theorem step_of_error (hasks : request.AsksRule)
    (hsize : ∀ {id : RegistryId} {kind : Kind} {order : Nat},
      request.ruleKey? = some (id, kind, order) → kind.coordCount order < Size.tableLimit)
    (h : s.step request = (.error cause, s')) : s' = s := by
  cases hkey : request.ruleKey? with
  | none =>
    obtain ⟨cause', hfail⟩ := fails_perform hasks hkey s
    exact congrArg Prod.snd (h.symm.trans hfail)
  | some key =>
    obtain ⟨id, kind, order⟩ := key
    rcases step_of_ruleKey hkey s with heq | ⟨cause', hfail⟩
    · exact step_rule_of_error (hsize hkey) (heq.symm.trans h)
    · exact congrArg Prod.snd (h.symm.trans hfail)

/-! ## Reports -/

/-- What a request reports is what it adds to the log. -/
theorem reported_eq {events : List Event}
    (h : (s.step request).2.journal.log.toList = s.journal.log.toList ++ events) :
    s.reported request = events := by
  rw [reported, h, ← Array.length_toList, List.drop_left]

theorem reported_of_unchanged (h : (s.step request).2 = s) : s.reported request = [] :=
  reported_eq (by rw [h, List.append_nil])

/-- A request for a rule that is answered reports its transcript. -/
theorem reported_of_answered {answer : Answer} (hs : s.WellKept) (hr : s.registries[id]? = some r)
    (hkey : request.ruleKey? = some (id, kind, order))
    (h : s.step request = (.ok answer, s')) :
    ∃ rule, answer = .rule rule ∧ kind.pointCount? order = some rule.value.npoints ∧
      s.reported request = r.transcript kind order := by
  have heq : s.step request = s.step (.rule id kind order) := by
    refine (step_of_ruleKey hkey s).resolve_right ?_
    rintro ⟨cause, hfail⟩
    rw [hfail] at h
    cases h
  have h' := heq.symm.trans h
  obtain ⟨rule, hrule, rfl⟩ := map_ok h'
  obtain ⟨r', w, hr', hrun, rfl⟩ := within_ok hrule
  obtain rfl := Option.some.inj (hr.symm.trans hr')
  have hfits := Registry.fits_of_rule (w := ⟨r, s.journal⟩) (hs id r hr) hrun
  refine ⟨rule, rfl, hfits.pointCount_eq, reported_eq ?_⟩
  rw [h]
  exact Registry.appends_rule (w := ⟨r, s.journal⟩) (hs id r hr) hrun

/-! ## Counts -/

/-- The number of rules that the registry at a place keeps for a kind and an order. -/
def keptCount (s : Session) (id : RegistryId) (kind : Kind) (order : Nat) : Nat :=
  match s.registries[id]? with
  | some r => r.keptCount kind order
  | none => 0

theorem keptCount_start (id : RegistryId) (kind : Kind) (order : Nat) :
    ({} : Session).keptCount id kind order = 0 := by
  cases id <;> rfl

/-- A request reports as many rules as built as it adds to the registry that it works on, and it
reports nothing if it works on none. -/
theorem Effect.builtCount_eq (h : s.Effect target s') : ∃ events,
    s'.journal.log.toList = s.journal.log.toList ++ events ∧ (target = none → events = []) ∧
      ∀ id kind order, s.keptCount id kind order +
        (if target = some id then builtCount events kind order else 0) =
          s'.keptCount id kind order := by
  cases h.onRegistries with
  | same hregs _ hlog =>
    refine ⟨[], by simp [hlog], fun _ => rfl, fun id kind order => ?_⟩
    simp [builtCount, keptCount, hregs]
  | opened hregs hjournal =>
    refine ⟨[], by simp [hjournal], fun _ => rfl, fun id kind order => ?_⟩
    rw [keptCount, keptCount, hregs]
    rcases Nat.lt_trichotomy id s.registries.length with hlt | rfl | hgt
    · simp [List.getElem?_append_left hlt]
    · simp [Registry.keptCount, Registry.find?]
    · simp [List.getElem?_eq_none (Nat.le_of_lt hgt),
        List.getElem?_append_right (Nat.le_of_lt hgt), Nat.sub_ne_zero_of_lt hgt]
  | @worked i r w _ events hr hw hregs _ hlog hevents =>
    obtain ⟨events', hlog', hcount⟩ := hw.builtCount_eq
    refine ⟨events' ++ events, by rw [hlog, hlog', List.append_assoc],
      fun h => absurd h (Option.some_ne_none i), fun id kind order => ?_⟩
    have hlt := (List.getElem?_eq_some_iff.mp hr).1
    rw [builtCount_append, builtCount_eq_zero hevents, Nat.add_zero, keptCount, keptCount, hregs]
    by_cases hid : i = id
    · subst hid
      simpa [hr, List.getElem?_set_self hlt] using hcount kind order
    · simp [hid, List.getElem?_set_ne hid]

/-- What the requests of a run that work on the registry at a place add to the log. -/
def reportsTo (id : RegistryId) (s : Session) : List Request → List Event
  | [] => []
  | request :: requests =>
    (if s.target? request = some id then s.reported request else []) ++
      reportsTo id (s.step request).2 requests

/-- Over a run, a registry reports as many rules as built as it adds. -/
theorem builtCount_reportsTo (s : Session) (requests : List Request) (id : RegistryId) (kind : Kind)
    (order : Nat) : s.keptCount id kind order + builtCount (reportsTo id s requests) kind order =
      (s.after requests).keptCount id kind order := by
  induction requests generalizing s with
  | nil => rfl
  | cons request requests ih =>
    obtain ⟨events, hlog, -, hcount⟩ := (s.step_effect request).builtCount_eq
    have hstep := hcount id kind order
    show _ = ((s.step request).2.after requests).keptCount id kind order
    rw [reportsTo, builtCount_append, reported_eq hlog, ← ih, ← hstep, Nat.add_assoc]
    split <;> rfl

/-- The log of a run on one registry. -/
theorem log_after (s : Session) (requests : List Request)
    (h : ∀ before request later, requests = before ++ request :: later →
      ∀ id', (s.after before).target? request = some id' → id' = id) :
    (s.after requests).journal.log.toList = s.journal.log.toList ++ reportsTo id s requests := by
  induction requests generalizing s with
  | nil => exact (List.append_nil _).symm
  | cons request requests ih =>
    obtain ⟨events, hlog, hnone, -⟩ := (s.step_effect request).builtCount_eq
    have hrest := ih (s.step request).2 fun before request' later heq =>
      h (request :: before) request' later (by rw [heq, List.cons_append])
    have hfirst : (if s.target? request = some id then s.reported request else []) = events := by
      rw [reported_eq hlog]
      cases htarget : s.target? request with
      | none => simp [hnone htarget]
      | some id' => simp [h [] request requests rfl id' htarget]
    rw [reportsTo, hfirst, ← List.append_assoc, ← hlog]
    exact hrest

/-! ## Runs -/

/-- The log over a run, for the registry `r` at a place after it.

* As many reports say that the rule of a kind and an order was built as the registry keeps of them,
  which is one or none.
* If no request of the run works on another registry, these reports are the log.
* A request for a rule that is answered reports what `Registry.Records` says, with the number of
  points of the answer, whichever way the rule is asked for.
* A request for a rule that fails reports nothing, if the rule would fit one table.
* The same holds of requests for rules in the middle of longer work on the registry. -/
theorem reports_of_run (requests : List Request)
    (hr : (({} : Session).after requests).registries[id]? = some r) :
    (∀ kind order, builtCount (reportsTo id {} requests) kind order =
      if (r.find? kind order).isSome then 1 else 0) ∧
    ((∀ before request later, requests = before ++ request :: later →
        ∀ id', (({} : Session).after before).target? request = some id' → id' = id) →
      (({} : Session).after requests).journal.log.toList = reportsTo id {} requests) ∧
    (∀ {request : Request} {kind : Kind} {order : Nat} {answer : Answer} {s' : Session},
      request.ruleKey? = some (id, kind, order) →
        (({} : Session).after requests).step request = (.ok answer, s') →
          ∃ rule, answer = .rule rule ∧ r.Records kind order rule.value.npoints
            ((({} : Session).after requests).reported request)) ∧
    (∀ {request : Request} {cause : Failure} {s' : Session}, request.AsksRule →
      (∀ {id : RegistryId} {kind : Kind} {order : Nat},
        request.ruleKey? = some (id, kind, order) → kind.coordCount order < Size.tableLimit) →
        (({} : Session).after requests).step request = (.error cause, s') →
          (({} : Session).after requests).reported request = []) ∧
    ∀ {w w' : Workshop} {kind : Kind} {order : Nat},
      Workshop.Leads ⟨r, (({} : Session).after requests).journal⟩ w →
        (∀ {rule : Shared FloatRule}, (Registry.rule kind order).run w = (.ok rule, w') →
          ∃ events, w.Appends events w' ∧
            w.registry.Records kind order rule.value.npoints events) ∧
        ∀ {cause : Failure}, kind.coordCount order < Size.tableLimit →
          (Registry.rule kind order).run w = (.error cause, w') → w' = w := by
  have hs := (sound_start.after requests).wellKept
  refine ⟨fun kind order => ?_, fun honly => ?_, fun hkey h => ?_, fun hasks hsize h => ?_,
    fun hw => ⟨fun hrun => ?_, fun hsize hrun => ?_⟩⟩
  · have hcount := builtCount_reportsTo {} requests id kind order
    rwa [keptCount_start, Nat.zero_add, keptCount, hr] at hcount
  · exact log_after {} requests honly
  · obtain ⟨rule, rfl, hcount, hreported⟩ := reported_of_answered hs hr hkey h
    exact ⟨rule, rfl, hreported ▸ Registry.records_transcript r hcount⟩
  · exact reported_of_unchanged (by rw [h]; exact step_of_error hasks hsize h)
  · have hkept := hw.wellKept (hs id r hr)
    exact ⟨_, Registry.appends_rule hkept hrun,
      Registry.records_transcript _ (Registry.fits_of_rule hkept hrun).pointCount_eq⟩
  · rcases Registry.run_rule_cases (fun _ => hsize) with ⟨cause', -, heq⟩ | ⟨-, rule, w₁, heq⟩
    · exact congrArg Prod.snd (hrun.symm.trans heq)
    · rw [hrun] at heq
      cases heq

/-- A cube rule after the line rule of its order: the line rule is built once and served once, and
an order outside the limits reports nothing. -/
theorem reports_of_hexahedron_run :
    ∃ (r : Registry) (rule : Shared FloatRule) (s' : Session),
      (({} : Session).after [.line 0 2]).registries[0]? = some r ∧
      (({} : Session).after [.line 0 2]).step (.hexahedron 0 2) = (.ok (.rule rule), s') ∧
      builtCount (reportsTo 0 {} [.line 0 2]) .line 2 = 1 ∧
      builtCount (reportsTo 0 {} [.line 0 2]) .hexahedron 2 = 0 ∧
      r.Records .hexahedron 2 rule.value.npoints
        ((({} : Session).after [.line 0 2]).reported (.hexahedron 0 2)) ∧
      (({} : Session).after [.line 0 2]).reported (.line 0 65) = [] := by
  obtain ⟨r, rule, s', s'', hr, hstep, hrefused, hline, hfree⟩ :
      ∃ (r : Registry) (rule : Shared FloatRule) (s' s'' : Session),
        (({} : Session).after [.line 0 2]).registries[0]? = some r ∧
        (({} : Session).after [.line 0 2]).step (.hexahedron 0 2) = (.ok (.rule rule), s') ∧
        (({} : Session).after [.line 0 2]).step (.line 0 65) =
          (.error (.rejected (.invalidOrder 65 64)), s'') ∧
        (r.find? .line 2).isSome ∧ r.find? .hexahedron 2 = none :=
    ⟨_, _, _, _, rfl, rfl, rfl, rfl, rfl⟩
  obtain ⟨hcount, -, hanswered, hfailed, -⟩ := reports_of_run [.line 0 2] hr
  obtain ⟨rule', hrule, hrecords⟩ := @hanswered (.hexahedron 0 2) _ _ _ _ rfl hstep
  cases hrule
  refine ⟨r, rule, s', hr, hstep, ?_, ?_, hrecords, ?_⟩
  · rw [hcount, if_pos hline]
  · rw [hcount, hfree]
    rfl
  · refine @hfailed (.line 0 65) _ _ trivial (fun hkey => ?_) hrefused
    cases hkey
    decide

end Session

end Cubature
