import Cubature.Proofs.Session.Sets
import Mathlib.Data.Set.Card

/-!
# Queries for side sets

A request for a side set is a query to a catalog (`SideQuery`), by a name that stands for an
element or by a described topology.

* `step_query`, `Answers.files`: a side set that is answered is filed under the name and the base of
  the query.
* `catalogs_of_error`: a request that fails leaves every catalog as it is.
* `filesKey_step`, `filesKey_after`: the filed keys are those of the queries that were answered.

The main statement is `sideSets_of_run`: what the answers to queries are over every run.
-/

namespace Cubature

/-! ## Answers -/

/-- A request for a side set: the catalog, the name, the topology if the name stands for one, and
the base rule. -/
structure SideQuery where
  catalog : CatalogId
  name : String
  topology : Except Failure (Topology Float)
  base : Shared FloatRule

/-- What the set of a query is filed under. -/
def SideQuery.key (q : SideQuery) : SetKey := (q.name, q.base.id)

/-- The query that a request is, if it asks for a side set. -/
def Request.sideQuery? : Request → Option SideQuery
  | .sideSet catalog name base =>
    some ⟨catalog, name, (ReferenceElement.ofName name).map (·.topology), base⟩
  | .sideSetFor catalog topology base => some ⟨catalog, topology.name, .ok topology, base⟩
  | _ => none

namespace Session

variable {s s' : Session} {c : CatalogId} {id : RegistryId} {key : SetKey}
  {set set' : Shared SideSet} {request : Request} {q : SideQuery} {cause : Failure}

/-- A query is refused if its name stands for no topology, and is served by its catalog
otherwise. -/
def serveQuery (q : SideQuery) : Action (Shared SideSet) := do
  let t ← ofExcept q.topology
  serveSideSet q.catalog q.name t q.base

theorem step_query (hq : request.sideQuery? = some q) (s : Session) :
    s.step request = (Answer.sideSet <$> serveQuery q).run s := by
  cases request with
  | sideSet catalog name base =>
    cases hq
    simp only [step, Request.perform, run_map, sideSet, serveQuery, run_bind, run_ofExcept]
    cases ReferenceElement.ofName name <;> rfl
  | sideSetFor =>
    cases hq
    rfl
  | _ => cases hq

/-- A query is answered with a set. -/
def Answers (s : Session) (q : SideQuery) (set : Shared SideSet) (s' : Session) : Prop :=
  ∃ request : Request, request.sideQuery? = some q ∧ s.step request = (.ok (.sideSet set), s')

theorem answers_of_step (hq : request.sideQuery? = some q)
    (h : (s.step request).1 = .ok (.sideSet set)) : s.Answers q set (s.step request).2 :=
  ⟨request, hq, Prod.ext h rfl⟩

/-- A request for a side set is answered with a side set. -/
theorem exists_set_of_step {answer : Answer} (hq : request.sideQuery? = some q)
    (h : (s.step request).1 = .ok answer) : ∃ set, answer = .sideSet set := by
  rw [step_query hq] at h
  obtain ⟨set, -, rfl⟩ := map_ok (Prod.ext h rfl)
  exact ⟨set, rfl⟩

theorem Answers.serve (h : s.Answers q set s') :
    ∃ t, q.topology = .ok t ∧ (serveSideSet q.catalog q.name t q.base).run s = (.ok set, s') := by
  obtain ⟨request, hq, hstep⟩ := h
  rw [step_query hq] at hstep
  obtain ⟨_, hquery, hset⟩ := map_ok hstep
  cases hset
  obtain ⟨t, s₁, htop, hserve⟩ := bind_ok hquery
  obtain ⟨ht, rfl⟩ := Prod.mk.inj htop
  exact ⟨t, ht, hserve⟩

/-- A catalog has a set filed under a key. -/
def FilesKey (s : Session) (c : CatalogId) (key : SetKey) : Prop := ∃ id set, s.Files c id key set

/-- A set that was filed before is served as it is. -/
theorem serve_of_files {name : String} {t : Topology Float} {base : Shared FloatRule}
    (hf : s.Files c id (name, base.id) set)
    (h : (serveSideSet c name t base).run s = (.ok set', s')) : set' = set ∧ s' = s := by
  obtain ⟨catalog, hc, rfl, hf⟩ := hf
  have hfind : catalog.find? name base = some set := hf
  rw [run_serveSideSet] at h
  cases hr : s.registries[catalog.registry]? with
  | none =>
    simp only [hc, hr] at h
    cases h
  | some r =>
    simp only [hc, hr, hfind] at h
    cases h
    exact ⟨rfl, rfl⟩

/-- A set that was not filed before is built and filed. -/
theorem serve_of_not_files {name : String} {t : Topology Float} {base : Shared FloatRule}
    (hnew : ¬s.FilesKey c (name, base.id))
    (h : (serveSideSet c name t base).run s = (.ok set, s')) :
    ∃ catalog r w, s.catalogs[c]? = some catalog ∧ s.registries[catalog.registry]? = some r ∧
      (buildSideSet name t base).run ⟨r, s.journal⟩ = (.ok set.value, w) ∧
      s'.catalogs = s.catalogs.set c (catalog.keep name base set) ∧
      s'.registries = s.registries.set catalog.registry w.registry ∧
      s'.journal = issueSet name base w.journal set.value := by
  rw [run_serveSideSet] at h
  cases hc : s.catalogs[c]? with
  | none =>
    simp only [hc] at h
    cases h
  | some catalog =>
    cases hr : s.registries[catalog.registry]? with
    | none =>
      simp only [hc, hr] at h
      cases h
    | some r =>
      cases hfind : catalog.find? name base with
      | some set' => exact absurd ⟨catalog.registry, set', catalog, hc, rfl, hfind⟩ hnew
      | none =>
        simp only [hc, hr, hfind] at h
        generalize hrun : (buildSideSet name t base).run ⟨r, s.journal⟩ = out at h
        obtain ⟨_ | built, w⟩ := out <;> cases h
        exact ⟨catalog, r, w, rfl, hr, hrun, rfl, rfl, rfl⟩

/-- The set that is answered is filed afterwards. -/
theorem Answers.files (h : s.Answers q set s') : ∃ id, s'.Files q.catalog id q.key set := by
  obtain ⟨t, -, hserve⟩ := h.serve
  by_cases hkey : s.FilesKey q.catalog q.key
  · obtain ⟨id, set', hf⟩ := hkey
    obtain ⟨rfl, rfl⟩ := serve_of_files hf hserve
    exact ⟨id, hf⟩
  · obtain ⟨catalog, r, w, hc, -, hbuild, hcats, -⟩ := serve_of_not_files hkey hserve
    obtain ⟨htop, hbase, -⟩ := buildSideSet_ok hbuild
    refine ⟨catalog.registry, catalog.keep q.name q.base set, ?_, rfl, ?_⟩
    · rw [hcats, List.getElem?_set_self (List.getElem?_eq_some_iff.mp hc).1]
    · exact List.lookup_cons_self

/-! ## Requests that file nothing -/

theorem catalogs_within {β : Type} (id : RegistryId) (work : Work β) (s : Session) :
    ((within id work).run s).2.catalogs = s.catalogs := by
  rw [run_within]
  split <;> rfl

theorem catalogs_forMass (kind : Kind) (degree : Nat) (s : Session) :
    ((forMass kind degree).run s).2.catalogs = s.catalogs := by
  unfold forMass
  rw [run_bind, run_ofExcept]
  cases orderForMass degree with
  | error => rfl
  | ok order => exact catalogs_within _ _ s

theorem catalogs_requireGlobal {β : Type} (work : Work β) (rule : Shared FloatRule) (s : Session) :
    ((requireGlobal rule >>= fun _ => within globalRegistry work).run s).2.catalogs =
      s.catalogs := by
  have hs : ((requireGlobal rule).run s).2 = s := by
    rw [run_requireGlobal]
    split <;> rfl
  rw [run_bind]
  generalize (requireGlobal rule).run s = out at hs
  obtain ⟨_ | _, s'⟩ := out
  · exact congrArg catalogs hs
  · exact (catalogs_within _ _ s').trans (congrArg catalogs hs)

/-- A request for something else leaves the catalogs alone, or it is answered with a new catalog. -/
theorem catalogs_step (hq : request.sideQuery? = none) (s : Session) :
    (s.step request).2.catalogs = s.catalogs ∨
      ∃ id, s.step request = (.ok (.catalog s.catalogs.length),
        { s with catalogs := s.catalogs ++ [{ registry := id }] }) := by
  unfold step
  cases request with
  | sideSet | sideSetFor => cases hq
  -- A catalog is opened on a registry that there is; all other requests leave the catalogs alone.
  | newCatalog registry =>
    simp only [Request.perform, run_map, run_newCatalog]
    cases s.registries[registry]? with
    | none => exact .inl rfl
    | some r => exact .inr ⟨registry, rfl⟩
  | newRegistry config =>
    left
    simp only [Request.perform, run_bind, run_newRegistry]
    cases config.elim (.ok {}) Registry.withConfig <;> rfl
  | arbitrary dim npoints coords weights =>
    left
    simp only [Request.perform, run_map, run_arbitrary]
    cases Rule.arbitrary dim npoints coords weights <;> rfl
  | warmUp registry kinds orders =>
    left
    have h := catalogs_within registry (Registry.warmUp kinds orders) s
    simp only [Request.perform, run_bind]
    generalize (within registry (Registry.warmUp kinds orders)).run s = out at h
    obtain ⟨_ | _, s'⟩ := out <;> exact h
  | forMass kind degree =>
    left
    simp only [Request.perform, run_map, catalogs_forMass]
  | sideRule registry rule =>
    left
    cases registry with
    | some registry => simp only [Request.perform, run_map, catalogs_within]
    | none =>
      simp only [Request.perform, run_map]
      exact catalogs_requireGlobal _ rule s
  | changeOrder registry rule order =>
    left
    cases registry with
    | some registry => simp only [Request.perform, run_map, catalogs_within]
    | none =>
      simp only [Request.perform, run_map]
      exact catalogs_requireGlobal _ rule s
  | rule | line | quadrilateral | triangle | hexahedron | tetrahedron | ruleForElement
  | forStiffness =>
    left
    simp only [Request.perform, run_map, forStiffness, catalogs_within]

theorem catalogs_of_serve_error {name : String} {t : Topology Float} {base : Shared FloatRule}
    (h : (serveSideSet c name t base).run s = (.error cause, s')) : s'.catalogs = s.catalogs := by
  rw [run_serveSideSet] at h
  split at h
  · cases h
    rfl
  split at h
  · cases h
    rfl
  split at h
  · cases h
  split at h <;> cases h
  rfl

/-- A request that fails leaves every catalog as it is. -/
theorem catalogs_of_error (h : (s.step request).1 = .error cause) :
    (s.step request).2.catalogs = s.catalogs := by
  cases hq : request.sideQuery? with
  | none =>
    rcases catalogs_step hq s with hcats | ⟨id, hstep⟩
    · exact hcats
    · rw [hstep] at h
      cases h
  | some q =>
    rw [step_query hq, run_map, serveQuery, run_bind, run_ofExcept] at h ⊢
    cases ht : q.topology with
    | error => rfl
    | ok t =>
      simp only [ht] at h ⊢
      generalize hserve : (serveSideSet q.catalog q.name t q.base).run s = out at h ⊢
      obtain ⟨_ | _, s'⟩ := out
      · exact catalogs_of_serve_error hserve
      · cases h

/-! ## Keys -/

theorem filesKey_iff {catalog : Catalog} (hc : s.catalogs[c]? = some catalog) :
    s.FilesKey c key ↔ key ∈ catalog.sets.map Prod.fst := by
  have : s.FilesKey c key ↔ (catalog.sets.lookup key).isSome := by
    simp [FilesKey, Files, hc, Option.isSome_iff_exists]
  rw [this, List.lookup_isSome_iff, List.mem_map]
  exact exists_congr fun p => and_congr_right fun _ => beq_iff_eq.trans eq_comm

/-- A request is a query to a catalog under a key, and it is answered. -/
def Succeeds (s : Session) (request : Request) (c : CatalogId) (key : SetKey) : Prop :=
  ∃ q set, request.sideQuery? = some q ∧ q.catalog = c ∧ q.key = key ∧
    (s.step request).1 = .ok (.sideSet set)

/-- A query that is answered files at most its own key. -/
theorem Answers.key_eq_of_new (h : s.Answers q set s') (hf : s'.Files c id key set')
    (hnew : ¬s.FilesKey c key) : q.catalog = c ∧ q.key = key := by
  obtain ⟨id₀, hfiled⟩ := h.files
  obtain ⟨t, -, hserve⟩ := h.serve
  have hold : ¬s.Files q.catalog id₀ q.key set := by
    intro hold
    obtain ⟨-, rfl⟩ := serve_of_files hold hserve
    exact hnew ⟨id, set', hf⟩
  obtain ⟨request, hq, hstep⟩ := h
  have heffect := s.step_effect request
  rw [hstep] at heffect
  exact heffect.key_eq_of_new_set hfiled hf hold fun hold' => hnew ⟨id, set', hold'⟩

/-- The keys that become filed are those of the queries that are answered. -/
theorem filesKey_step : (s.step request).2.FilesKey c key ↔
    s.FilesKey c key ∨ s.Succeeds request c key := by
  constructor
  · rintro ⟨id, set, hf⟩
    by_cases hold : s.FilesKey c key
    · exact .inl hold
    right
    cases hq : request.sideQuery? with
    | none =>
      rcases catalogs_step hq s with hcats | ⟨i, hstep⟩
      · exact absurd ⟨id, set, (files_congr hcats).mp hf⟩ hold
      · rw [hstep] at hf
        exact absurd ⟨id, set, (files_opened rfl).mp hf⟩ hold
    | some q =>
      cases hres : (s.step request).1 with
      | error cause =>
        exact absurd ⟨id, set, (files_congr (catalogs_of_error hres)).mp hf⟩ hold
      | ok answer =>
        obtain ⟨set₀, rfl⟩ := exists_set_of_step hq hres
        obtain ⟨hc, hkey⟩ := (answers_of_step hq hres).key_eq_of_new hf hold
        exact ⟨q, set₀, hq, hc, hkey, hres⟩
  · rintro (⟨id, set, hf⟩ | ⟨q, set, hq, rfl, rfl, hres⟩)
    · exact ⟨id, set, (s.step_effect request).files hf⟩
    · obtain ⟨id, hf⟩ := (answers_of_step hq hres).files
      exact ⟨id, set, hf⟩

/-- The keys that are filed after a run are those filed before it and those of its answered
queries. -/
theorem filesKey_after {requests : List Request} : (s.after requests).FilesKey c key ↔
    s.FilesKey c key ∨ ∃ before request later, requests = before ++ request :: later ∧
      (s.after before).Succeeds request c key :=
  after_iff (P := fun s => s.FilesKey c key) (Q := fun s request => s.Succeeds request c key)
    (fun _ _ => filesKey_step) s requests

/-! ## Runs -/

/-- What is answered has the name and the base of the query, and rules for every side of a
topology: of the queried one if nothing was filed under the key. -/
theorem Answers.complete (h : s.Answers q set s') (hs : s.Filed) :
    set.value.topology = q.name ∧ set.value.base.isSame q.base ∧
      ∃ t, set.value.Complete t ∧ (¬s.FilesKey q.catalog q.key → q.topology = .ok t) := by
  obtain ⟨t, ht, hserve⟩ := h.serve
  by_cases hkey : s.FilesKey q.catalog q.key
  · obtain ⟨id, set₀, hf⟩ := hkey
    obtain ⟨rfl, rfl⟩ := serve_of_files hf hserve
    obtain ⟨htop, hbase⟩ := Prod.mk.inj (hs.key_self hf)
    obtain ⟨r, t', -, hset⟩ := hs.covers hf
    exact ⟨htop.symm, by simp [Shared.isSame, hbase], t', hset.complete,
      fun hnew => absurd ⟨id, _, hf⟩ hnew⟩
  · obtain ⟨catalog, r, w, -, -, hbuild, -⟩ := serve_of_not_files hkey hserve
    obtain ⟨htop, hbase, hset⟩ := buildSideSet_ok hbuild
    exact ⟨htop, by simp [Shared.isSame, hbase], t, hset.complete, fun _ => ht⟩

theorem files_after (hf : s.Files c id key set) (requests : List Request) :
    (s.after requests).Files c id key set :=
  after_induction hf (fun hf h => h.files hf) requests

/-- Two answers in a run are the same set exactly if catalog, name and base are the same. -/
theorem Answers.same_iff {s₁ s₂ : Session} {q' : SideQuery} {between : List Request}
    (hs : s.Filed) (h : s.Answers q set s₁) (h' : (s₁.after between).Answers q' set' s₂) :
    (q'.catalog = q.catalog ∧ q'.name = q.name ∧ q'.base.isSame q.base → set' = set) ∧
      (set'.isSame set → q'.catalog = q.catalog ∧ q'.name = q.name ∧ q'.base.isSame q.base) := by
  obtain ⟨id, hf⟩ := h.files
  obtain ⟨id', hf'⟩ := h'.files
  obtain ⟨request, -, hstep⟩ := h
  obtain ⟨request', -, hstep'⟩ := h'
  have heffect := s.step_effect request
  have heffect' := (s₁.after between).step_effect request'
  rw [hstep] at heffect
  rw [hstep'] at heffect'
  have hs₁ : s₁.Filed := heffect.filed hs
  have hs₂ : s₂.Filed :=
    heffect'.filed (after_induction hs₁ (fun hs h => h.filed hs) between)
  have hf₂ : s₂.Files q.catalog id q.key set := heffect'.files (files_after hf between)
  constructor
  · rintro ⟨hc, hname, hbase⟩
    have hkey : q'.key = q.key := by
      simp only [Shared.isSame, beq_iff_eq] at hbase
      rw [SideQuery.key, SideQuery.key, hname, hbase]
    rw [hc, hkey] at hf'
    exact (hf'.unique hf₂).2
  · intro hsame
    obtain ⟨hc, hkey⟩ := hs₂.key_eq hf' hf₂ (by simpa [Shared.isSame] using hsame)
    obtain ⟨hname, hbase⟩ := Prod.mk.inj hkey
    exact ⟨hc, hname, by simp [Shared.isSame, hbase]⟩

theorem not_filesKey_start : ¬({} : Session).FilesKey c key := by
  rintro ⟨id, set, catalog, hc, -, hf⟩
  cases c with
  | zero =>
    cases hc
    cases hf
  | succ => cases hc

/-- A catalog has as many sets as there are keys of answered queries. -/
theorem size_after {requests : List Request} {catalog : Catalog}
    (hc : (({} : Session).after requests).catalogs[c]? = some catalog) :
    (catalog.size : ℕ∞) = {key | ∃ before request later, requests = before ++ request :: later ∧
      (({} : Session).after before).Succeeds request c key}.encard := by
  have hkeys : {key | ∃ before request later, requests = before ++ request :: later ∧
      (({} : Session).after before).Succeeds request c key} =
        ((catalog.sets.map Prod.fst).toFinset : Set SetKey) := by
    ext key
    simp only [Set.mem_ofPred_eq, List.coe_toFinset]
    rw [← filesKey_iff hc, filesKey_after]
    exact (or_iff_right not_filesKey_start).symm
  rw [hkeys, Set.encard_coe_eq_coe_finsetCard,
    List.toFinset_card_of_nodup ((filed_after requests).nodup hc), List.length_map]
  rfl

/-- What catalogs answer, at every point of every run.

* A side set has the name and the very base rule that were asked for, and rules for every side and
  no other, of the topology that was asked for if it is the first set of that name and base.
* Two answers are the same set if catalog, name and base are the same, and differ otherwise.
* A request that fails leaves every catalog as it is.
* A catalog has as many sets as there are different names and bases among its answers. -/
theorem sideSets_of_run (requests : List Request) :
    (∀ {q : SideQuery} {set : Shared SideSet} {s₁ : Session},
      (({} : Session).after requests).Answers q set s₁ →
        (set.value.topology = q.name ∧ set.value.base.isSame q.base ∧
          ∃ t, set.value.Complete t ∧
            (¬(({} : Session).after requests).FilesKey q.catalog q.key → q.topology = .ok t)) ∧
        ∀ {between : List Request} {q' : SideQuery} {set' : Shared SideSet} {s₂ : Session},
          (s₁.after between).Answers q' set' s₂ →
            (q'.catalog = q.catalog ∧ q'.name = q.name ∧ q'.base.isSame q.base → set' = set) ∧
            (set'.isSame set →
              q'.catalog = q.catalog ∧ q'.name = q.name ∧ q'.base.isSame q.base)) ∧
    (∀ {request : Request} {cause : Failure},
      ((({} : Session).after requests).step request).1 = .error cause →
        ((({} : Session).after requests).step request).2.catalogs =
          (({} : Session).after requests).catalogs) ∧
    ∀ {c : CatalogId} {catalog : Catalog},
      (({} : Session).after requests).catalogs[c]? = some catalog →
        (catalog.size : ℕ∞) =
          {key | ∃ before request later, requests = before ++ request :: later ∧
            (({} : Session).after before).Succeeds request c key}.encard := by
  refine ⟨fun h => ⟨h.complete (filed_after requests), fun h' => ?_⟩, catalogs_of_error, size_after⟩
  exact h.same_iff (filed_after requests) h'

/-- Two names of the triangle give two sets for one base, and a name that fails in between changes
nothing. -/
theorem sideSets_of_triangle_run :
    ∃ (base : Shared FloatRule) (set set' : Shared SideSet) (s₁ s₂ : Session),
      (({} : Session).after [.arbitrary 1 1 [0.5] none]).Answers
        ⟨0, "TRI3", .ok ReferenceElement.tri3.topology, base⟩ set s₁ ∧
      (s₁.after [.sideSet 0 "WEDGE6" base]).Answers
        ⟨0, "TRI", .ok ReferenceElement.tri3.topology, base⟩ set' s₂ ∧
      set.value.topology = "TRI3" ∧ set.value.base.isSame base ∧ ¬set'.isSame set := by
  obtain ⟨base, set, set', s₁, s₂, h, h'⟩ : ∃ (base : Shared FloatRule) (set set' : Shared SideSet)
      (s₁ s₂ : Session),
      (({} : Session).after [.arbitrary 1 1 [0.5] none]).Answers
        ⟨0, "TRI3", .ok ReferenceElement.tri3.topology, base⟩ set s₁ ∧
      (s₁.after [.sideSet 0 "WEDGE6" base]).Answers
        ⟨0, "TRI", .ok ReferenceElement.tri3.topology, base⟩ set' s₂ :=
    ⟨⟨0, ⟨.arbitrary, 1, 1, 1, [0.5], none⟩⟩, _, _, _, _, ⟨.sideSet 0 "TRI3" _, rfl, rfl⟩,
      ⟨.sideSet 0 "TRI" _, rfl, rfl⟩⟩
  obtain ⟨⟨htop, hbase, -⟩, hsame⟩ := (sideSets_of_run [.arbitrary 1 1 [0.5] none]).1 h
  refine ⟨base, set, set', s₁, s₂, h, h', htop, hbase, fun hid => ?_⟩
  have hname : "TRI" = "TRI3" := ((hsame h').2 hid).2.1
  exact absurd hname (by decide)

end Session

end Cubature
