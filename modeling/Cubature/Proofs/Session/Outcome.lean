import Cubature.Proofs.Session.Identity
import Cubature.Proofs.Side.Faults

/-!
# When a query is answered

A query whose key is not filed yet is answered with a new side set exactly if its topology is well
formed, at the limits of the registry and the order of the base rule. Otherwise it fails with the
error of the first check that the topology fails (`Session.outcome_of_run`).
-/

namespace Cubature

namespace Session

variable {s : Session} {request : Request} {q : SideQuery} {t : Topology Float} {catalog : Catalog}
  {r : Registry}

section Build

variable (hq : request.sideQuery? = some q) (ht : q.topology = .ok t)
  (hc : s.catalogs[q.catalog]? = some catalog) (hr : s.registries[catalog.registry]? = some r)
  (hnew : catalog.find? q.name q.base = none)

include hq ht hc hr hnew

/-- A query for a free key is answered if the set is built, and fails as building fails. -/
theorem step_build :
    (s.step request).1 = match (buildSideSet q.name t q.base).run ⟨r, s.journal⟩ with
      | (.ok set, w) => .ok (.sideSet ⟨w.journal.nextId, set⟩)
      | (.error failure, _) => .error failure := by
  rw [step_query hq, run_map, serveQuery, run_bind, run_ofExcept, ht]
  simp only [run_serveSideSet, hc, hr, hnew]
  generalize (buildSideSet q.name t q.base).run ⟨r, s.journal⟩ = out
  obtain ⟨_ | _, w⟩ := out <;> rfl

theorem step_build_ok_iff :
    (∃ set, (s.step request).1 = .ok (.sideSet set)) ↔
      ∃ set, ((buildSideSet q.name t q.base).run ⟨r, s.journal⟩).1 = .ok set := by
  rw [step_build hq ht hc hr hnew]
  generalize (buildSideSet q.name t q.base).run ⟨r, s.journal⟩ = out
  obtain ⟨_ | set, w⟩ := out
  · simp
  · exact ⟨fun _ => ⟨set, rfl⟩, fun _ => ⟨_, rfl⟩⟩

theorem step_build_error_iff {failure : Failure} :
    (s.step request).1 = .error failure ↔
      ((buildSideSet q.name t q.base).run ⟨r, s.journal⟩).1 = .error failure := by
  rw [step_build hq ht hc hr hnew]
  generalize (buildSideSet q.name t q.base).run ⟨r, s.journal⟩ = out
  obtain ⟨_ | _, w⟩ := out <;> simp

end Build

/-- What a query with a free key is answered, in every session that requests lead to, as far as the
rules of the sides fit their tables.

* It is answered with a side set exactly if its topology is well formed.
* It fails with an error exactly if that is the error of the first check that its topology fails.
* If its topology has no sides, the order of the base rule does not matter. -/
theorem outcome_of_run (requests : List Request) (hq : request.sideQuery? = some q)
    (ht : q.topology = .ok t)
    (hc : (({} : Session).after requests).catalogs[q.catalog]? = some catalog)
    (hr : (({} : Session).after requests).registries[catalog.registry]? = some r)
    (hnew : catalog.find? q.name q.base = none)
    (hfits : t.FitsTables r.config.maxOrder q.base.value.order) :
    ((∃ set, ((({} : Session).after requests).step request).1 = .ok (.sideSet set)) ↔
      t.WellFormed r.config.maxOrder q.base.value.order) ∧
    (∀ failure, ((({} : Session).after requests).step request).1 = .error failure ↔
      ∃ cause, failure = .rejected cause ∧ t.Fault r.config.maxOrder q.base.value.order cause) ∧
    (2 ≤ t.dim → t.numSides = 0 →
      ∃ set, ((({} : Session).after requests).step request).1 = .ok (.sideSet set)) := by
  have hw : r.WellKept := (sound_start.after requests).wellKept _ r hr
  have hanswer := (step_build_ok_iff hq ht hc hr hnew).trans (buildSideSet_ok_iff hw hfits)
  refine ⟨hanswer, fun failure => ?_, fun hdim hsides => ?_⟩
  · exact (step_build_error_iff hq ht hc hr hnew).trans (buildSideSet_error_iff hw hfits)
  · refine hanswer.mpr ⟨hdim, fun i hi => ?_⟩
    rw [hsides] at hi
    exact absurd hi (Nat.not_lt_zero i)

/-- A square whose vertices have one coordinate each. -/
def truncatedSquare : Topology Float :=
  { name := "TRUNCATED_QUAD"
    dim := 2
    numSides := 4
    sideShape? := fun side => if side < 4 then some "BAR2" else none
    sideVertices? := fun side => ReferenceElement.quad4.sides[side]?
    vertexCoords? := fun vertex => if vertex < 4 then some [0] else none }

/-- The first vertex decides, though the rule of its side was built. Without sides a set is built at
an order past the limits. -/
theorem outcome_of_truncatedSquare :
    ((({} : Session).after [.arbitrary 1 2 [0, 1] none]).step
        (.sideSetFor 0 truncatedSquare ⟨0, ⟨.arbitrary, 2, 2, 1, [0, 1], none⟩⟩)).1 =
      .error (.rejected (.shapeMismatch "vertex coordinates" 2 1)) ∧
    ∃ set, ((({} : Session).after [.arbitrary 1 65 (List.replicate 65 0) none]).step
        (.sideSetFor 0 { truncatedSquare with numSides := 0 }
          ⟨0, ⟨.arbitrary, 65, 65, 1, List.replicate 65 0, none⟩⟩)).1 = .ok (.sideSet set) := by
  constructor
  · have hfits : truncatedSquare.FitsTables 64 2 :=
      ⟨by decide, fun {_ e} _ _ _ => by cases e <;> decide⟩
    have hshape : truncatedSquare.HasShape 0 .bar2 := ⟨"BAR2", rfl, by decide⟩
    have hvertex : ¬truncatedSquare.Locates 0 := by
      rintro ⟨_, hcoords, hlen⟩
      cases hcoords
      cases hlen
    have hvertices : truncatedSquare.sideVertices? 0 = some ([] ++ 0 :: [1]) := rfl
    refine ((outcome_of_run [.arbitrary 1 2 [0, 1] none] rfl rfl rfl rfl rfl hfits).2.1 _).mpr
      ⟨_, rfl, ?_⟩
    exact .side (i := 0) (by decide) (by decide) (by simp)
      (.vertex hshape (by decide) hvertices (by simp) hvertex)
  · have hfits : { truncatedSquare with numSides := 0 }.FitsTables 64 65 :=
      ⟨by decide, fun {_ e} _ _ _ => by cases e <;> decide⟩
    exact (outcome_of_run [.arbitrary 1 65 (List.replicate 65 0) none] rfl rfl rfl rfl rfl
      hfits).2.2 (by decide) rfl

end Session

end Cubature
