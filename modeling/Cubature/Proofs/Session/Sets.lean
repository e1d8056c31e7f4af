import Cubature.Proofs.Session.Rules

/-!
# Kept side sets over a run

What every run of a session keeps of its catalogs. A request leaves the catalogs alone, opens one,
or files a new set in one (`Session.CatalogEffect`).

* `Effect.files`: a filed set stays filed.
* `Session.Filed`, `Effect.filed`: a set is filed under its own name and base, it covers a topology
  with rules of the registry of its catalog, keys are filed once, and different keys have different
  sets.
-/

namespace Cubature

namespace Session

variable {s s' : Session} {target : Option RegistryId} {c c' : CatalogId} {id id' : RegistryId}
  {key key' : SetKey} {set set' : Shared SideSet}

/-- The catalog at a place draws on the registry `id` and has a set filed under a key. -/
def Files (s : Session) (c : CatalogId) (id : RegistryId) (key : SetKey) (set : Shared SideSet) :
    Prop :=
  ∃ catalog, s.catalogs[c]? = some catalog ∧ catalog.registry = id ∧
    catalog.sets.lookup key = some set

theorem Files.unique (h : s.Files c id key set) (h' : s.Files c id' key set') :
    id = id' ∧ set = set' := by
  obtain ⟨catalog, hc, rfl, hf⟩ := h
  obtain ⟨catalog', hc', rfl, hf'⟩ := h'
  obtain rfl := Option.some.inj (hc.symm.trans hc')
  exact ⟨rfl, Option.some.inj (hf.symm.trans hf')⟩

theorem files_congr (hcats : s'.catalogs = s.catalogs) :
    s'.Files c id key set ↔ s.Files c id key set := by
  unfold Files
  rw [hcats]

/-- What a request can do to the catalogs. -/
inductive CatalogEffect (s : Session) : Session → Prop where
  | same {s' : Session} (hcats : s'.catalogs = s.catalogs) : CatalogEffect s s'
  | opened {s' : Session} {id : RegistryId}
    (hcats : s'.catalogs = s.catalogs ++ [({ registry := id } : Catalog)]) : CatalogEffect s s'
  | filed {s' : Session} {c : CatalogId} {catalog : Catalog} {r : Registry} {set : Shared SideSet}
    {t : Topology Float} (hc : s.catalogs[c]? = some catalog)
    (hfree : catalog.find? set.value.topology set.value.base = none)
    (hcats : s'.catalogs =
      s.catalogs.set c (catalog.keep set.value.topology set.value.base set))
    (hlo : s.journal.nextId ≤ set.id) (hhi : set.id < s'.journal.nextId)
    (hr : s'.registries[catalog.registry]? = some r) (hset : set.value.Covers r t) :
    CatalogEffect s s'

theorem Effect.onCatalogs (h : s.Effect target s') : s.CatalogEffect s' := by
  cases h with
  | idle | newRegistry | issue | work => exact .same rfl
  | newCatalog => exact .opened rfl
  | @newSet c catalog r w t set hc hr hfree hw hset =>
    have hlt := (List.getElem?_eq_some_iff.mp hr).1
    have hset : (Shared.mk w.journal.nextId set).value.Covers w.registry t := hset
    exact .filed hc hfree rfl hw.grown.nextId_le (Nat.lt_succ_self _)
      (List.getElem?_set_self hlt) hset

/-! ## Growth -/

/-- A new catalog has nothing filed. -/
theorem files_opened {i : RegistryId}
    (hcats : s'.catalogs = s.catalogs ++ [({ registry := i } : Catalog)]) :
    s'.Files c id key set ↔ s.Files c id key set := by
  unfold Files
  rw [hcats]
  rcases Nat.lt_or_ge c s.catalogs.length with hlt | hge
  · rw [List.getElem?_append_left hlt]
  · rw [List.getElem?_append_right hge, List.getElem?_eq_none hge, List.getElem?_singleton]
    constructor
    · rintro ⟨catalog, hc, -, hf⟩
      split at hc <;> cases hc
      cases hf
    · rintro ⟨catalog, hc, -⟩
      cases hc

/-- A catalog with a new set has it filed beside what it had. -/
theorem files_filed {catalog : Catalog} {set₀ : Shared SideSet}
    (hc : s.catalogs[c]? = some catalog)
    (hcats : s'.catalogs =
      s.catalogs.set c (catalog.keep set₀.value.topology set₀.value.base set₀)) :
    s'.Files c' id key set ↔
      if c = c' ∧ key = (set₀.value.topology, set₀.value.base.id) then
        catalog.registry = id ∧ set₀ = set
      else s.Files c' id key set := by
  have hlt := (List.getElem?_eq_some_iff.mp hc).1
  unfold Files
  rw [hcats]
  by_cases hcc : c = c'
  · subst hcc
    rw [List.getElem?_set_self hlt, hc]
    by_cases hk : key = (set₀.value.topology, set₀.value.base.id)
    · simp [hk, Catalog.keep]
    · simp [hk, Catalog.keep, List.lookup_cons, beq_eq_false_iff_ne.mpr hk]
  · rw [List.getElem?_set_ne hcc]
    simp [hcc]

/-- A filed set stays filed. -/
theorem Effect.files (h : s.Effect target s') (hf : s.Files c id key set) :
    s'.Files c id key set := by
  cases h.onCatalogs with
  | same hcats => exact (files_congr hcats).mpr hf
  | opened hcats => exact (files_opened hcats).mpr hf
  | @filed c₀ catalog _ set₀ _ hc hfree hcats =>
    rw [files_filed hc hcats, if_neg]
    · exact hf
    · rintro ⟨rfl, rfl⟩
      obtain ⟨catalog', hc', -, hf⟩ := hf
      obtain rfl := Option.some.inj (hc.symm.trans hc')
      rw [Catalog.find?, hf] at hfree
      cases hfree

/-- The catalog at a place draws on a registry. -/
def Draws (s : Session) (c : CatalogId) (id : RegistryId) : Prop :=
  ∃ catalog, s.catalogs[c]? = some catalog ∧ catalog.registry = id

theorem Files.draws (h : s.Files c id key set) : s.Draws c id := by
  obtain ⟨catalog, hc, hid, -⟩ := h
  exact ⟨catalog, hc, hid⟩

theorem Draws.unique (h : s.Draws c id) (h' : s.Draws c id') : id = id' := by
  obtain ⟨catalog, hc, rfl⟩ := h
  obtain ⟨catalog', hc', rfl⟩ := h'
  rw [Option.some.inj (hc.symm.trans hc')]

/-- A catalog draws on the same registry at all times. -/
theorem Effect.draws (h : s.Effect target s') (hs : s.Draws c id) : s'.Draws c id := by
  obtain ⟨catalog, hc, rfl⟩ := hs
  have hlt := (List.getElem?_eq_some_iff.mp hc).1
  cases h.onCatalogs with
  | same hcats => exact ⟨catalog, by rw [hcats, hc], rfl⟩
  | opened hcats => exact ⟨catalog, by rw [hcats, List.getElem?_append_left hlt, hc], rfl⟩
  | @filed c₀ catalog₀ _ set₀ _ hc₀ _ hcats =>
    by_cases hcc : c₀ = c
    · subst hcc
      obtain rfl := Option.some.inj (hc.symm.trans hc₀)
      refine ⟨catalog.keep set₀.value.topology set₀.value.base set₀, ?_, rfl⟩
      rw [hcats, List.getElem?_set_self hlt]
    · exact ⟨catalog, by rw [hcats, List.getElem?_set_ne hcc, hc], rfl⟩

theorem Draws.after (h : s.Draws c id) (requests : List Request) : (s.after requests).Draws c id :=
  after_induction h (fun hs h => h.draws hs) requests

/-! ## Filing -/

/-- A set that is new has a new number, is filed under its own name and base, and covers a topology
with rules of the registry of its catalog. -/
theorem Effect.files_new (h : s.Effect target s') (hf : s'.Files c id key set) :
    s.Files c id key set ∨ s.journal.nextId ≤ set.id ∧ set.id < s'.journal.nextId ∧
      key = (set.value.topology, set.value.base.id) ∧
      ∃ r t, s'.registries[id]? = some r ∧ set.value.Covers r t := by
  cases h.onCatalogs with
  | same hcats => exact .inl ((files_congr hcats).mp hf)
  | opened hcats => exact .inl ((files_opened hcats).mp hf)
  | filed hc hfree hcats hlo hhi hr hset =>
    rw [files_filed hc hcats] at hf
    split at hf
    · rename_i hkey
      obtain ⟨rfl, rfl⟩ := hf
      exact .inr ⟨hlo, hhi, hkey.2, _, _, hr, hset⟩
    · exact .inl hf

/-- Two new sets are one and the same. -/
theorem Effect.key_eq_of_new_set (h : s.Effect target s') (hf : s'.Files c id key set)
    (hf' : s'.Files c' id' key' set') (hnew : ¬s.Files c id key set)
    (hnew' : ¬s.Files c' id' key' set') : c = c' ∧ key = key' := by
  cases h.onCatalogs with
  | same hcats => exact absurd ((files_congr hcats).mp hf) hnew
  | opened hcats => exact absurd ((files_opened hcats).mp hf) hnew
  | filed hc hfree hcats =>
    rw [files_filed hc hcats] at hf hf'
    split at hf
    · split at hf'
      · rename_i hkey hkey'
        exact ⟨hkey.1.symm.trans hkey'.1, hkey.2.trans hkey'.2.symm⟩
      · exact absurd hf' hnew'
    · exact absurd hf hnew

/-- Filed sets have issued numbers, and no two places and keys have the same set. A set is filed
under its own name and base and covers a topology with rules of the registry of its catalog, and a
catalog has each key once. -/
structure Filed (s : Session) : Prop where
  id_lt : ∀ {c id key set}, s.Files c id key set → set.id < s.journal.nextId
  key_eq : ∀ {c id key set c' id' key' set'}, s.Files c id key set → s.Files c' id' key' set' →
    set.id = set'.id → c = c' ∧ key = key'
  key_self : ∀ {c id key set}, s.Files c id key set →
    key = (set.value.topology, set.value.base.id)
  covers : ∀ {c id key set}, s.Files c id key set →
    ∃ r t, s.registries[id]? = some r ∧ set.value.Covers r t
  nodup : ∀ {c : CatalogId} {catalog : Catalog}, s.catalogs[c]? = some catalog →
    (catalog.sets.map Prod.fst).Nodup

theorem Effect.keys_nodup (h : s.Effect target s') (hs : s.Filed) {catalog : Catalog}
    (hc : s'.catalogs[c]? = some catalog) : (catalog.sets.map Prod.fst).Nodup := by
  cases h.onCatalogs with
  | same hcats =>
    rw [hcats] at hc
    exact hs.nodup hc
  | opened hcats =>
    rw [hcats, List.getElem?_append] at hc
    split at hc
    · exact hs.nodup hc
    · rw [List.getElem?_singleton] at hc
      split at hc <;> cases hc
      exact List.nodup_nil
  | @filed c₀ catalog₀ _ set₀ _ hc₀ hfree hcats =>
    rw [hcats, List.getElem?_set] at hc
    split at hc
    · split at hc <;> cases hc
      have hnone : ∀ p ∈ catalog₀.sets, (set₀.value.topology, set₀.value.base.id) ≠ p.1 := by
        intro p hp
        have := List.lookup_eq_none_iff.mp hfree p hp
        simpa using this
      refine List.nodup_cons.mpr ⟨fun hmem => ?_, hs.nodup hc₀⟩
      obtain ⟨p, hp, heq⟩ := List.mem_map.mp hmem
      exact hnone p hp heq.symm
    · exact hs.nodup hc

theorem Effect.filed (h : s.Effect target s') (hs : s.Filed) : s'.Filed where
  id_lt hf := by
    rcases h.files_new hf with hold | ⟨-, hlt, -⟩
    · exact Nat.lt_of_lt_of_le (hs.id_lt hold) h.nextId_le
    · exact hlt
  key_eq {c id key set c' id' key' set'} hf hf' hid := by
    by_cases hold : s.Files c id key set
    · rcases h.files_new hf' with hold' | ⟨hlo, -⟩
      · exact hs.key_eq hold hold' hid
      · have := hs.id_lt hold
        omega
    · by_cases hold' : s.Files c' id' key' set'
      · have hlo := ((h.files_new hf).resolve_left hold).1
        have := hs.id_lt hold'
        omega
      · exact h.key_eq_of_new_set hf hf' hold hold'
  key_self hf := by
    rcases h.files_new hf with hold | ⟨-, -, hkey, -⟩
    · exact hs.key_self hold
    · exact hkey
  covers hf := by
    rcases h.files_new hf with hold | ⟨-, -, -, hcovers⟩
    · obtain ⟨r, t, hr, hset⟩ := hs.covers hold
      obtain ⟨r', hr', hext⟩ := h.registry_extends hr
      exact ⟨r', t, hr', hset.of_extends hext⟩
    · exact hcovers
  nodup hc := h.keys_nodup hs hc

theorem filed_start : ({} : Session).Filed := by
  have hcat : ∀ {c : CatalogId} {catalog : Catalog}, ({} : Session).catalogs[c]? = some catalog →
      catalog.sets = [] := by
    rintro (_ | _) catalog hc <;> cases hc
    rfl
  have hnone : ∀ {c id key set}, ¬({} : Session).Files c id key set := by
    rintro c id key set ⟨catalog, hc, -, hf⟩
    rw [hcat hc] at hf
    cases hf
  exact ⟨fun hf => absurd hf hnone, fun hf => absurd hf hnone, fun hf => absurd hf hnone,
    fun hf => absurd hf hnone, fun hc => by simp [hcat hc]⟩

theorem filed_after (requests : List Request) : (({} : Session).after requests).Filed :=
  after_induction filed_start (fun hs h => h.filed hs) requests

end Session

end Cubature
