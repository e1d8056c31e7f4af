import Cubature.Proofs.Gauss.Exact
import Cubature.Proofs.Rule.Table

/-!
# Sums over product rules

In exact arithmetic the sum over a product rule is a sum of sums over its one-dimensional rules, one
for each loop (`sum_flatMap_eq`, `sum_map_eq`).

* `Rule.integrate_square`, `Rule.integrate_cube`, `Rule.integrate_triangle`,
  `Rule.integrate_tetrahedron`: the flat tables as nested sums.
* `Rule.Lists.integrate_one`: the sum of the weights.
-/

namespace Cubature

open scoped Scalar Scalar.Exact

/-! ## Nested loops -/

section Loops

variable {K β : Type} [Field K] {l : List (K × K)} {f : β → K} {h : K → K} {c : K}

/-- The sum over a loop around others, which have the weight `c` of the loops around it. -/
theorem sum_flatMap_eq {g : K × K → List β} (hg : ∀ p, ((g p).map f).sum = h p.1 * (c * p.2)) :
    ((l.flatMap g).map f).sum = weightedSum l h * c := by
  induction l with
  | nil => simp [weightedSum]
  | cons p l ih =>
    have hcons : weightedSum (p :: l) h = h p.1 * p.2 + weightedSum l h := by simp [weightedSum]
    rw [List.flatMap_cons, List.map_append, List.sum_append, hg, ih, hcons]
    ring

/-- The sum over an innermost loop. -/
theorem sum_map_eq {g : K × K → β} (hg : ∀ p, f (g p) = h p.1 * (c * p.2)) :
    ((l.map g).map f).sum = weightedSum l h * c := by
  have hterm : ∀ p, f (g p) = h p.1 * p.2 * c := by
    intro p
    rw [hg]
    ring
  simp only [weightedSum, List.map_map, Function.comp_def, hterm, List.sum_map_mul_right]

end Loops

/-! ## Product rules -/

namespace Rule

variable {K : Type} [Field K] [LinearOrder K] {r : Rule K} {l ls lt lr : List (K × K)}

theorem integrate_square (h : r.Lists (squareTable l)) (f : List K → K) :
    r.integrate f = .ok (weightedSum l fun x => weightedSum l fun y => f [x, y]) := by
  rw [h.integrate_eq, Scalar.sum_eq_sum, ← mul_one (weightedSum l _)]
  congr 1
  refine sum_flatMap_eq fun p => sum_map_eq fun q => ?_
  ring

theorem integrate_cube (h : r.Lists (cubeTable l)) (f : List K → K) :
    r.integrate f =
      .ok (weightedSum l fun x => weightedSum l fun y => weightedSum l fun z => f [x, y, z]) := by
  rw [h.integrate_eq, Scalar.sum_eq_sum, ← mul_one (weightedSum l _)]
  congr 1
  refine sum_flatMap_eq fun p => sum_flatMap_eq fun q => sum_map_eq fun o => ?_
  ring

theorem integrate_triangle (h : r.Lists (triangleTable ls lt)) (f : List K → K) :
    r.integrate f = .ok (weightedSum lt fun y => weightedSum ls fun x => f [x * (1 - y), y]) := by
  rw [h.integrate_eq, Scalar.sum_eq_sum, ← mul_one (weightedSum lt _)]
  congr 1
  refine sum_flatMap_eq fun q => sum_map_eq fun p => ?_
  simp only [Scalar.Exact.ofNat_one]
  ring

theorem integrate_tetrahedron (h : r.Lists (tetrahedronTable ls lt lr)) (f : List K → K) :
    r.integrate f = .ok (weightedSum lr fun z => weightedSum lt fun y => weightedSum ls fun x =>
      f [x * (1 - y) * (1 - z), y * (1 - z), z]) := by
  rw [h.integrate_eq, Scalar.sum_eq_sum, ← mul_one (weightedSum lr _)]
  congr 1
  refine sum_flatMap_eq fun o => sum_flatMap_eq fun q => sum_map_eq fun p => ?_
  simp only [Scalar.Exact.ofNat_one]
  ring

/-- The integral of a function that is one at every point is the sum of the weights. -/
theorem Lists.integrate_one {table : List (List K × K)} (h : r.Lists table) {f : List K → K}
    (hf : ∀ p ∈ table, f p.1 = 1) : r.integrate f = .ok r.weightList.sum := by
  have hterms : (table.map fun p => f p.1 * p.2) = table.map Prod.snd :=
    List.map_congr_left fun p hp => by rw [hf p hp, one_mul]
  rw [h.integrate_eq, Scalar.sum_eq_sum, hterms, weightList, h.weights_eq, Option.getD_some]

end Rule

end Cubature
