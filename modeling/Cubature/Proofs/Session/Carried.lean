import Cubature.Proofs.Session.Queries

/-!
# Parent rules over a run

Every side set of a run was built for the topology of a query (`Session.BuiltFor`), and its parent
rules are the images of its side rules under the interpolation of that topology's vertices. So a
sum over the points of a side in the element is a sum over the side itself, to the last bit
(`Session.carried_of_run`).
-/

namespace Cubature

namespace Session

variable {s s' : Session} {c : CatalogId} {id : RegistryId} {key : SetKey} {set : Shared SideSet}
  {q : SideQuery} {t : Topology Float} {request : Request}

/-- A query whose key is not filed yet is answered with a set that is carried into its topology. -/
theorem Answers.carriedInto (h : s.Answers q set s') (hs : s.WellKept)
    (hnew : ¬s.FilesKey q.catalog q.key) (ht : q.topology = .ok t) : set.value.CarriedInto t := by
  obtain ⟨t', ht', hserve⟩ := h.serve
  obtain rfl := Except.ok.inj (ht.symm.trans ht')
  obtain ⟨catalog, r, w, -, hr, hbuild, -⟩ := serve_of_not_files hnew hserve
  have hmoves := moves_buildSideSet q.name t q.base ⟨r, s.journal⟩
  rw [hbuild] at hmoves
  exact (buildSideSet_ok hbuild).2.2.carriedInto (hmoves.wellKept (hs _ r hr))

/-- A request builds a set for a catalog and a key: it is a query under the key, which the catalog
has not filed yet, and is answered with the set. -/
def BuildsSet (s : Session) (request : Request) (c : CatalogId) (key : SetKey)
    (set : Shared SideSet) : Prop :=
  ∃ q, request.sideQuery? = some q ∧ q.catalog = c ∧ q.key = key ∧ ¬s.FilesKey c key ∧
    (s.step request).1 = .ok (.sideSet set)

/-- The sets that become filed are those that are built. -/
theorem files_step :
    (∃ id, (s.step request).2.Files c id key set) ↔
      (∃ id, s.Files c id key set) ∨ s.BuildsSet request c key set := by
  constructor
  · rintro ⟨id, hf⟩
    by_cases hold : s.FilesKey c key
    · obtain ⟨id', set', hf'⟩ := hold
      obtain ⟨-, rfl⟩ := hf.unique ((s.step_effect request).files hf')
      exact .inl ⟨id', hf'⟩
    · obtain ⟨q, set', hq, hc, hkey, hres⟩ := (filesKey_step.mp ⟨id, set, hf⟩).resolve_left hold
      obtain ⟨id', hf'⟩ := (answers_of_step hq hres).files
      rw [hc, hkey] at hf'
      obtain ⟨-, rfl⟩ := hf.unique hf'
      exact .inr ⟨q, hq, hc, hkey, hold, hres⟩
  · rintro (⟨id, hf⟩ | ⟨q, hq, rfl, rfl, -, hres⟩)
    · exact ⟨id, (s.step_effect request).files hf⟩
    · exact (answers_of_step hq hres).files

/-- Every set that is filed after a run was built in it. -/
theorem exists_buildsSet {requests : List Request}
    (hf : (({} : Session).after requests).Files c id key set) :
    ∃ before request later, requests = before ++ request :: later ∧
      (({} : Session).after before).BuildsSet request c key set := by
  have hstart : ¬∃ id, ({} : Session).Files c id key set :=
    fun ⟨id, hf⟩ => not_filesKey_start ⟨id, set, hf⟩
  exact ((after_iff (P := fun s => ∃ id, s.Files c id key set)
    (Q := fun s request => s.BuildsSet request c key set) (fun _ _ => files_step) {}
    requests).mp ⟨id, hf⟩).resolve_left hstart

/-- In a run from the start, a set was built for a topology: by a query for it whose key was not
filed at the time. -/
def BuiltFor (requests : List Request) (t : Topology Float) (set : Shared SideSet) : Prop :=
  ∃ before request later q, requests = before ++ request :: later ∧
    request.sideQuery? = some q ∧ q.topology = .ok t ∧
    (({} : Session).after before).BuildsSet request q.catalog q.key set

theorem BuildsSet.exists_topology (h : s.BuildsSet request c key set) :
    ∃ q t, request.sideQuery? = some q ∧ q.topology = .ok t ∧ q.catalog = c ∧ q.key = key := by
  obtain ⟨q, hq, hc, hkey, -, hres⟩ := h
  obtain ⟨t, ht, -⟩ := (answers_of_step hq hres).serve
  exact ⟨q, t, hq, ht, hc, hkey⟩

/-- Parent rules over every run.

* If a set was built for a topology, then on each side the parent rule has as its points the
  interpolations of the vertices of that side at the points of the side rule, one for one, and its
  sum of a function is the sum of the composed function over the side rule.
* Every set that a catalog has was built for some topology. -/
theorem carried_of_run (requests : List Request) :
    (∀ {t : Topology Float} {set : Shared SideSet},
      BuiltFor requests t set → set.value.CarriedInto t) ∧
    ∀ {c : CatalogId} {id : RegistryId} {key : SetKey} {set : Shared SideSet},
      (({} : Session).after requests).Files c id key set → ∃ t, BuiltFor requests t set := by
  constructor
  · rintro t set ⟨before, request, later, q, rfl, hq, ht, q', hq', -, -, hnew, hres⟩
    have hs : (({} : Session).after before).WellKept :=
      everywhere_after Registry.wellKept_empty (fun h => h.wellKept) before
    exact (answers_of_step hq hres).carriedInto hs hnew ht
  · intro c id key set hf
    obtain ⟨before, request, later, hrun, hbuild⟩ := exists_buildsSet hf
    obtain ⟨q, t, hq, ht, rfl, rfl⟩ := hbuild.exists_topology
    exact ⟨t, before, request, later, q, hrun, hq, ht, hbuild⟩

/-- Sums over the last side of the tetrahedron, for a rule of two points as the base. -/
theorem carried_of_tetrahedron_run :
    ∃ (base : Shared FloatRule) (set : Shared SideSet),
      BuiltFor [.arbitrary 1 2 [0.5, 0.25] none, .sideSet 0 "TETRA4" base]
        ReferenceElement.tetra4.topology set ∧
      ∃ rule parent corners, set.value.sideRule 3 = .ok rule ∧ set.value.parentRule 3 = .ok parent ∧
        [0, 2, 1].map (ReferenceElement.tetra4.topology (α := Float)).vertexCoords? =
          corners.map some ∧
        ∀ f, parent.value.integrate f =
          rule.value.integrate fun p => f (carry 3 rule.value.kind corners p) := by
  obtain ⟨base, set, hbuilt⟩ : ∃ (base : Shared FloatRule) (set : Shared SideSet),
      BuiltFor [.arbitrary 1 2 [0.5, 0.25] none, .sideSet 0 "TETRA4" base]
        ReferenceElement.tetra4.topology set := by
    refine ⟨⟨0, ⟨.arbitrary, 2, 2, 1, [0.5, 0.25], none⟩⟩, _, [.arbitrary 1 2 [0.5, 0.25] none], _,
      [], _, rfl, rfl, rfl, _, rfl, rfl, rfl, ?_, rfl⟩
    rintro ⟨_, _, _, hc, -, hf⟩
    cases hc
    cases hf
  have hset := (carried_of_run _).1 hbuilt
  obtain ⟨rule, parent, vertices, corners, hrule, hparent, hvertices, hcorners, -, himage⟩ :=
    hset.side (i := 3) (by rw [hset.numSides_eq]; decide)
  cases hvertices
  exact ⟨base, set, hbuilt, rule, parent, corners, hrule, hparent, hcorners, himage.integrate_eq⟩

end Session

end Cubature
