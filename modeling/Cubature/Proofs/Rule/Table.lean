import Cubature.Rule.Product
import Cubature.Rule.Views

/-!
# Rules as tables of weighted points

A rule keeps its coordinates and its weights in two flat lists. `Rule.Lists r table` says that they
are those of a list of points, each with its weight, one after another.

* `blocks_flatMap`: a list cut into blocks gives back the blocks it was put together from.
* `Rule.Lists.integrate_eq`: the weighted sum pairs every point with its own weight.
* `Rule.lists_line`, `Rule.lists_quadrilateral`, `Rule.lists_hexahedron`, `Rule.lists_triangle`,
  `Rule.lists_tetrahedron`: the points of the product rules. All of this holds of any arithmetic.
-/

namespace Cubature

open scoped Scalar

/-- One block is cut off the front. -/
theorem blocksAfter_succ {α : Type} (size count : Nat) (xs : List α) :
    blocksAfter size (count + 1) xs #[] =
      xs.take size :: blocksAfter size count (xs.drop size) #[] := by
  rw [blocksAfter, blocksAfter_eq]
  rfl

/-- A list that was put together from blocks of one size is cut into these blocks. -/
theorem blocks_flatMap {α β : Type} {size : Nat} (hsize : 0 < size) {f : β → List α}
    {table : List β} (h : ∀ b ∈ table, (f b).length = size) :
    blocks size (table.flatMap f) = table.map f := by
  induction table with
  | nil => simp [blocks, blocksAfter]
  | cons b table ih =>
    have hb : (f b).length = size := h b List.mem_cons_self
    have hrest : ∀ c ∈ table, (f c).length = size := fun c hc => h c (List.mem_cons_of_mem b hc)
    have hcount : (f b ++ table.flatMap f).length / size =
        (table.flatMap f).length / size + 1 := by
      rw [List.length_append, hb, Nat.add_comm, Nat.add_div_right _ hsize]
    have htake : (f b ++ table.flatMap f).take size = f b := by rw [← hb, List.take_left]
    have hdrop : (f b ++ table.flatMap f).drop size = table.flatMap f := by
      rw [← hb, List.drop_left]
    rw [List.flatMap_cons, blocks, hcount, blocksAfter_succ, htake, hdrop, List.map_cons,
      ← ih hrest]
    rfl

/-- The rule on `[0, 1]` has the given nodes, each with its weight. -/
def UnitRule.Lists {α : Type} (u : UnitRule α) (l : List (α × α)) : Prop :=
  u.locations = l.map Prod.fst ∧ u.weights = l.map Prod.snd

namespace Rule

variable {α : Type}

/-- The rule lists the points of a table with their weights, in order. -/
structure Lists (r : Rule α) (table : List (List α × α)) : Prop where
  dim_pos : 0 < r.dim
  length_coords : ∀ p ∈ table, p.1.length = r.dim
  locations_eq : r.locations = table.flatMap Prod.fst
  weights_eq : r.weights = some (table.map Prod.snd)

/-- The blocks with the weights are the table. -/
theorem Lists.zip_blocks {r : Rule α} {table : List (List α × α)} (h : r.Lists table) :
    (blocks r.dim r.locations).zip (table.map Prod.snd) = table := by
  rw [h.locations_eq, blocks_flatMap h.dim_pos h.length_coords, List.zip_map']
  exact List.map_id table

/-- The weighted sum is taken over the table. -/
theorem Lists.integrate_eq [Scalar α] {r : Rule α} {table : List (List α × α)} (h : r.Lists table)
    (f : List α → α) :
    r.integrate f = .ok (Scalar.sum (table.map fun p => f p.1 * p.2)) := by
  rw [integrate, h.weights_eq]
  simp only [h.zip_blocks]

/-! ## Product rules -/

/-- The points on the line. -/
def lineTable (l : List (α × α)) : List (List α × α) := l.map fun p => ([p.1], p.2)

theorem lists_line {l : List (α × α)} {order : Nat} {nodes : Gauss.Nodes α}
    (hx : nodes.locations = l.map Prod.fst) (hw : nodes.weights = l.map Prod.snd) :
    (line order nodes).Lists (lineTable l) where
  dim_pos := Nat.succ_pos 0
  length_coords p hp := by
    obtain ⟨_, -, rfl⟩ := List.mem_map.mp hp
    rfl
  locations_eq := by
    rw [lineTable, List.flatMap_map, line, hx]
    exact List.map_eq_flatMap
  weights_eq := by
    simp [lineTable, line, hw, Function.comp_def]

variable [Scalar α]

/-- The points `(x, y)` over the square. -/
def squareTable (l : List (α × α)) : List (List α × α) :=
  l.flatMap fun p => l.map fun q => ([p.1, q.1], p.2 * q.2)

/-- The points `(x, y, z)` over the cube. -/
def cubeTable (l : List (α × α)) : List (List α × α) :=
  l.flatMap fun p => l.flatMap fun q => l.map fun o => ([p.1, q.1, o.1], p.2 * q.2 * o.2)

/-- The points over the triangle: of the nodes `x` of `s` and `y` of `t`. -/
def triangleTable (s t : List (α × α)) : List (List α × α) :=
  t.flatMap fun q => s.map fun p => ([p.1 * (1 - q.1), q.1], p.2 * q.2)

/-- The points over the tetrahedron: of the nodes `x` of `s`, `y` of `t` and `z` of `r`. -/
def tetrahedronTable (s t r : List (α × α)) : List (List α × α) :=
  r.flatMap fun o => t.flatMap fun q => s.map fun p =>
    ([p.1 * (1 - q.1) * (1 - o.1), q.1 * (1 - o.1), o.1], p.2 * q.2 * o.2)

section Length

variable (l s t r : List (α × α))

omit [Scalar α] in
theorem length_lineTable : (lineTable l).length = l.length := List.length_map _

theorem length_squareTable : (squareTable l).length = l.length * l.length := by
  simp [squareTable, List.map_const']

theorem length_cubeTable : (cubeTable l).length = l.length * l.length * l.length := by
  simp [cubeTable, List.map_const', Nat.mul_assoc]

theorem length_triangleTable : (triangleTable s t).length = t.length * s.length := by
  simp [triangleTable, List.map_const']

theorem length_tetrahedronTable :
    (tetrahedronTable s t r).length = r.length * t.length * s.length := by
  simp [tetrahedronTable, List.map_const', Nat.mul_assoc]

end Length

section Tensor

variable {line : Rule α} {l : List (α × α)}

theorem lists_quadrilateral (hx : line.locations = l.map Prod.fst)
    (hw : line.weightList = l.map Prod.snd) : (quadrilateral line).Lists (squareTable l) where
  dim_pos := Nat.succ_pos 1
  length_coords p hp := by
    simp only [squareTable, List.mem_flatMap, List.mem_map] at hp
    obtain ⟨_, -, _, -, rfl⟩ := hp
    rfl
  locations_eq := by
    simp [squareTable, quadrilateral, hx, List.flatMap_map, List.flatMap_assoc]
  weights_eq := by
    simp [squareTable, quadrilateral, hw, List.flatMap_map, List.map_flatMap, Function.comp_def]

theorem lists_hexahedron (hx : line.locations = l.map Prod.fst)
    (hw : line.weightList = l.map Prod.snd) : (hexahedron line).Lists (cubeTable l) where
  dim_pos := Nat.succ_pos 2
  length_coords p hp := by
    simp only [cubeTable, List.mem_flatMap, List.mem_map] at hp
    obtain ⟨_, -, _, -, _, -, rfl⟩ := hp
    rfl
  locations_eq := by
    simp [cubeTable, hexahedron, hx, List.flatMap_map, List.flatMap_assoc]
  weights_eq := by
    simp [cubeTable, hexahedron, hw, List.flatMap_map, List.map_flatMap, Function.comp_def]

end Tensor

section Simplex

variable {s t r : UnitRule α} {ls lt lr : List (α × α)} {order : Nat}

theorem lists_triangle (hs : s.Lists ls) (ht : t.Lists lt) :
    (triangle order s t).Lists (triangleTable ls lt) where
  dim_pos := Nat.succ_pos 1
  length_coords p hp := by
    simp only [triangleTable, List.mem_flatMap, List.mem_map] at hp
    obtain ⟨_, -, _, -, rfl⟩ := hp
    rfl
  locations_eq := by
    simp [triangleTable, triangle, hs.1, ht.1, List.flatMap_map, List.flatMap_assoc]
  weights_eq := by
    simp [triangleTable, triangle, hs.2, ht.2, List.flatMap_map, List.map_flatMap,
      Function.comp_def]

theorem lists_tetrahedron (hs : s.Lists ls) (ht : t.Lists lt) (hr : r.Lists lr) :
    (tetrahedron order s t r).Lists (tetrahedronTable ls lt lr) where
  dim_pos := Nat.succ_pos 2
  length_coords p hp := by
    simp only [tetrahedronTable, List.mem_flatMap, List.mem_map] at hp
    obtain ⟨_, -, _, -, _, -, rfl⟩ := hp
    rfl
  locations_eq := by
    simp [tetrahedronTable, tetrahedron, hs.1, ht.1, hr.1, List.flatMap_map, List.flatMap_assoc]
  weights_eq := by
    simp [tetrahedronTable, tetrahedron, hs.2, ht.2, hr.2, List.flatMap_map, List.map_flatMap,
      Function.comp_def]

end Simplex

end Rule

end Cubature
