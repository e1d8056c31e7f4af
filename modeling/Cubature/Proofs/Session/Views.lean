import Cubature.Proofs.Rule.Views
import Cubature.Proofs.Session.Aliases

/-!
# Views over a run

Every rule of a run, whether a registry built it, a caller supplied it or it was carried into an
element, is well shaped (`Session.Arises.wellShaped`): the first for the table that it was built in,
the second for the checks that let it pass, the third for both.

The main statement is `views_of_run`.
-/

namespace Cubature

/-- The coordinates that a request supplies can be stored. -/
def Request.Storable : Request → Prop
  | .arbitrary _ _ coords _ => coords.length < Size.tableLimit
  | _ => True

/-- What is carried into an element is well shaped. -/
theorem wellShaped_of_parentRule {α : Type} [Scalar α] {t : Topology α} {i : ℕ}
    {rule parent : Rule α} (h : parentRule t i rule = .ok parent) : parent.WellShaped := by
  obtain ⟨_, mapped, -, hsize, -, harbitrary⟩ := parentRule_cases h
  refine Rule.wellShaped_of_arbitrary ?_ harbitrary
  obtain ⟨-, -, hcoords, -⟩ := Rule.arbitrary_ok harbitrary
  rwa [hcoords]

namespace Session

variable {s : Session} {requests : List Request} {origin : Origin} {rule : Shared FloatRule}

/-- Every rule of a run is well shaped, wherever it comes from. -/
theorem Arises.wellShaped (hrun : ∀ request ∈ requests, request.Storable)
    (h : Arises requests origin rule) : rule.value.WellShaped := by
  cases origin with
  | registry id =>
    obtain ⟨kind, order, r, hr, hf⟩ := arises_registry_iff.mp h
    have hfits := ((sound_start.after requests).wellKept id r hr).fits hf
    exact hfits.wellShaped ((settled_start.after requests id r hr).fitsTable hf)
  | caller =>
    cases h with
    | supplied hsplit hstep =>
      have hmem := hsplit ▸ List.mem_append_right _ List.mem_cons_self
      exact Rule.wellShaped_of_arbitrary (hrun _ hmem) (arbitrary_of_supplied hstep)
  | carried =>
    cases h with
    | @carried before _ request q set i _ _ hq hstep hparent =>
      obtain ⟨id, hf⟩ := (answers_of_step hq hstep).files
      obtain ⟨r, t, -, hset⟩ := ((step_effect _ request).filed (filed_after before)).covers hf
      obtain ⟨side, hside, rfl⟩ := SideSet.parentRule_ok hparent
      exact wellShaped_of_parentRule (hset.side hside).parent

/-- Views over every run whose supplied coordinates can be stored.

* Supplied coordinates make a rule exactly if the dimension is positive, there are `dim` of them for
  each point, and there are no weights or one for each point. What is reported otherwise is the
  first of these that fails, and a number of coordinates that is no word is not accepted.
* All views of a rule of the run, wherever it comes from, show the same points and weights. -/
theorem views_of_run (hrun : ∀ request ∈ requests, request.Storable) :
    (∀ (dim npoints : ℕ) (coords : List Float) (weights : Option (List Float)),
      coords.length < Size.tableLimit →
        ((∃ rule, Rule.arbitrary dim npoints coords weights = .ok rule) ↔
          1 ≤ dim ∧ coords.length = npoints * dim ∧
            ∀ ws, weights = some ws → ws.length = npoints) ∧
        ∀ cause, Rule.arbitrary dim npoints coords weights = .error cause ↔
          Rule.Misfit dim npoints coords.length (weights.map List.length) cause) ∧
    ∀ origin rule, Arises requests origin rule →
      ∃ coords weights, rule.value.Shows coords weights :=
  ⟨fun _ _ _ _ hstored =>
    ⟨Rule.arbitrary_isOk_iff hstored, fun _ => Rule.arbitrary_eq_error_iff hstored⟩,
    fun _ _ h => (h.wellShaped hrun).exists_shows⟩

/-- The eight points of a cube rule, and two points that were supplied without weights. -/
theorem views_of_supplied_run :
    (∀ request ∈ [Request.hexahedron 0 2, .arbitrary 1 2 [0.5, 0.25] none], request.Storable) ∧
    (∃ (rule : Shared FloatRule) (coords : Fin rule.value.npoints → List Float)
        (weights : Option (Fin rule.value.npoints → Float)),
      (({} : Session).after [.hexahedron 0 2, .arbitrary 1 2 [0.5, 0.25] none]).Holds 0
        .hexahedron 2 rule ∧ rule.value.npoints = 8 ∧ rule.value.Shows coords weights) ∧
    ∃ rule : Shared FloatRule,
      ((({} : Session).after [.hexahedron 0 2]).step (.arbitrary 1 2 [0.5, 0.25] none)).1 =
        .ok (.rule rule) ∧ rule.value.points.length = 2 ∧
      rule.value.point 2 = .error (.aborted .index) ∧
      ∀ f, rule.value.integrate f =
        .error (.rejected (.unsupported "integrate" "arbitrary")) := by
  have hrun : ∀ request ∈ [Request.hexahedron 0 2, .arbitrary 1 2 [0.5, 0.25] none],
      request.Storable :=
    List.forall_mem_cons.mpr ⟨trivial, List.forall_mem_singleton.mpr (by
      show 2 < Size.tableLimit
      decide)⟩
  obtain ⟨kept, hkept, height⟩ : ∃ kept : Shared FloatRule,
      (({} : Session).after [.hexahedron 0 2, .arbitrary 1 2 [0.5, 0.25] none]).Holds 0
        .hexahedron 2 kept ∧ kept.value.npoints = 8 := ⟨_, ⟨_, rfl, rfl⟩, rfl⟩
  obtain ⟨rule, hrule, htwo, hnone, hname⟩ : ∃ rule : Shared FloatRule,
      ((({} : Session).after [.hexahedron 0 2]).step (.arbitrary 1 2 [0.5, 0.25] none)).1 =
        .ok (.rule rule) ∧ rule.value.npoints = 2 ∧ rule.value.weights = none ∧
      rule.value.name = "arbitrary" := ⟨_, rfl, rfl, rfl, rfl⟩
  obtain ⟨-, hviews⟩ := views_of_run hrun
  obtain ⟨coords, weights, hshows⟩ := hviews _ kept (arises_registry_iff.mpr ⟨_, _, hkept⟩)
  obtain ⟨coords', weights', hshows'⟩ := hviews .caller rule
    (@Arises.supplied _ [.hexahedron 0 2] [] _ _ _ _ _ rfl hrule)
  have hnone' : weights' = none := Option.map_eq_none_iff.mp (hshows'.weights_eq.symm.trans hnone)
  refine ⟨hrun, ⟨kept, coords, weights, hkept, height, hshows⟩, rule, hrule, ?_,
    hshows'.point_past 2 htwo.le, fun f => ?_⟩
  · rw [hshows'.points_eq, List.length_ofFn, htwo]
  · rw [hshows'.integrate_none hnone', hname]

end Session

end Cubature
