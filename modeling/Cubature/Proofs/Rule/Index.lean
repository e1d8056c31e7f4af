import Cubature.Proofs.Rule.Shape
import Cubature.Proofs.Rule.Table

/-!
# Positions in product rules

The points of a product rule are numbered by the indices of the nodes that they are made of, as the
digits of their position (`Rule.Numbered`). The first coordinate has the leading digit in the tensor
products (`Rule.numbered_quadrilateral`, `Rule.numbered_hexahedron`) and the last digit in the
collapsed ones (`Rule.numbered_triangle`, `Rule.numbered_tetrahedron`).
-/

namespace Cubature

open scoped Scalar

/-! ## Positions -/

section Positions

variable {β γ : Type} {l : List β} {f : β → List γ} {n i j : Nat}

/-- In a list that is put together from blocks of one length, the entry `j` of the block `i`. -/
theorem getElem?_flatMap (h : ∀ b ∈ l, (f b).length = n) (hj : j < n) :
    (l.flatMap f)[i * n + j]? = l[i]?.bind fun b => (f b)[j]? := by
  induction l generalizing i with
  | nil => rfl
  | cons b l ih =>
    have hb : (f b).length = n := h b List.mem_cons_self
    rw [List.flatMap_cons]
    cases i with
    | zero =>
      rw [Nat.zero_mul, Nat.zero_add, List.getElem?_append_left (hb.symm ▸ hj)]
      rfl
    | succ i =>
      rw [List.getElem?_append_right (by rw [hb, Nat.succ_mul]; omega), hb, List.getElem?_cons_succ,
        ← ih fun c hc => h c (List.mem_cons_of_mem b hc)]
      congr 1
      rw [Nat.succ_mul]
      omega

end Positions

/-- A position below `m * n` has a leading digit below `m` and a last one below `n`. -/
theorem exists_digits {m n k : Nat} (hk : k < m * n) :
    ∃ (i : Fin m) (j : Fin n), i * n + j = k := by
  have hn : 0 < n := Nat.pos_of_mul_pos_left (Nat.zero_lt_of_lt hk)
  exact ⟨⟨k / n, Nat.div_lt_of_lt_mul (Nat.mul_comm m n ▸ hk)⟩, ⟨k % n, Nat.mod_lt k hn⟩,
    Nat.div_add_mod' k n⟩

theorem digits_lt {n : Nat} (i j : Fin n) : i * n + j < n * n :=
  calc i * n + j < i * n + n := Nat.add_lt_add_left j.isLt _
    _ = (i + 1) * n := (Nat.succ_mul ..).symm
    _ ≤ n * n := Nat.mul_le_mul_right n i.isLt

section Products

variable {β γ δ ε : Type} {n : Nat} (p : Fin n → β) (q : Fin n → γ) (o : Fin n → δ)

/-- Pairs are listed with the first index as the leading digit of their position. -/
theorem getElem?_pairs (f : β → γ → ε) (i j : Fin n) :
    ((List.ofFn p).flatMap fun b => (List.ofFn q).map fun c => f b c)[(i * n + j : Nat)]? =
      some (f (p i) (q j)) := by
  rw [getElem?_flatMap (fun b _ => by simp) j.isLt]
  simp

/-- Triples are listed with the first index as the leading digit and the last as the last one. -/
theorem getElem?_triples (f : β → γ → δ → ε) (i j k : Fin n) :
    ((List.ofFn p).flatMap fun b => (List.ofFn q).flatMap fun c => (List.ofFn o).map fun d =>
        f b c d)[((i * n + j) * n + k : Nat)]? = some (f (p i) (q j) (o k)) := by
  have hdigits : (i * n + j) * n + k = i * (n * n) + (j * n + k) := by
    rw [Nat.add_mul, Nat.mul_assoc, Nat.add_assoc]
  have hlen (b : β) : ((List.ofFn q).flatMap fun c => (List.ofFn o).map fun d =>
      f b c d).length = n * n := by
    simp only [List.length_flatMap, List.length_map, List.length_ofFn, List.map_const',
      List.sum_replicate_nat]
  rw [hdigits, getElem?_flatMap (fun b _ => hlen b) (digits_lt j k), List.getElem?_ofFn,
    dif_pos i.isLt]
  exact getElem?_pairs q o (f (p i)) j k

end Products

/-- A list of known length is a sequence. -/
theorem exists_ofFn {α : Type} {n : Nat} {l : List α} (h : l.length = n) :
    ∃ f : Fin n → α, l = List.ofFn f := by
  subst h
  exact ⟨_, List.ofFn_getElem.symm⟩

/-- Nodes with their weights. -/
def paired {α : Type} {n : Nat} (x w : Fin n → α) : List (α × α) := List.ofFn fun i => (x i, w i)

section Paired

variable {α : Type} {n : Nat} (x w : Fin n → α)

@[simp] theorem length_paired : (paired x w).length = n := List.length_ofFn

@[simp] theorem map_fst_paired : (paired x w).map Prod.fst = List.ofFn x := by
  rw [paired, List.map_ofFn]
  rfl

@[simp] theorem map_snd_paired : (paired x w).map Prod.snd = List.ofFn w := by
  rw [paired, List.map_ofFn]
  rfl

end Paired

/-- The rule on `[0, 1]` has the nodes `x` with the weights `w`. -/
def UnitRule.Reads {α : Type} {n : Nat} (u : UnitRule α) (x w : Fin n → α) : Prop :=
  u.locations = List.ofFn x ∧ u.weights = List.ofFn w

theorem UnitRule.Reads.lists {α : Type} {n : Nat} {u : UnitRule α} {x w : Fin n → α}
    (h : u.Reads x w) : u.Lists (paired x w) :=
  ⟨h.1.trans (map_fst_paired x w).symm, h.2.trans (map_snd_paired x w).symm⟩

namespace Rule

variable {α : Type} {r : Rule α} {n : Nat}

/-- The rule has the nodes `x` with the weights `w`. -/
def Reads (r : Rule α) (x w : Fin n → α) : Prop :=
  r.locations = List.ofFn x ∧ r.weights = some (List.ofFn w)

/-- The rule has `count` points, numbered by indices: the point of an index is at its position, and
every position is that of an index. -/
structure Numbered {ι : Type} (r : Rule α) (count : Nat) (position : ι → Nat)
    (point : ι → Point α) : Prop where
  npoints_eq : r.npoints = count
  length_points : r.points.length = count
  point_eq : ∀ a, r.points[position a]? = some (point a)
  covers : ∀ k < count, ∃ a, position a = k

/-- The position of a pair of indices, the first one leading. -/
def pairPosition (n : Nat) (a : Fin n × Fin n) : Nat := a.1 * n + a.2

/-- The position of a triple of indices, the first one leading. -/
def triplePosition (n : Nat) (a : Fin n × Fin n × Fin n) : Nat := (a.1 * n + a.2.1) * n + a.2.2

/-- The points of a rule are those of its table. -/
theorem Lists.points_eq {table : List (List α × α)} (h : r.Lists table) :
    r.points = table.map fun p => ⟨p.1, some p.2⟩ := by
  rw [points, h.weights_eq]
  simp only [h.zip_blocks]

/-- The entries of a table are numbered by pairs. -/
theorem Lists.numbered_pairs {table : List (List α × α)} {entry : Fin n → Fin n → List α × α}
    (h : r.Lists table) (hn : r.npoints = n * n) (hlen : table.length = n * n)
    (hentry : ∀ i j : Fin n, table[(i * n + j : Nat)]? = some (entry i j)) :
    r.Numbered (n * n) (pairPosition n)
      fun a => ⟨(entry a.1 a.2).1, some (entry a.1 a.2).2⟩ where
  npoints_eq := hn
  length_points := by rw [h.points_eq, List.length_map, hlen]
  point_eq a := by rw [pairPosition, h.points_eq, List.getElem?_map, hentry, Option.map_some]
  covers k hk := by
    obtain ⟨i, j, rfl⟩ := exists_digits hk
    exact ⟨(i, j), rfl⟩

/-- The entries of a table are numbered by triples. -/
theorem Lists.numbered_triples {table : List (List α × α)}
    {entry : Fin n → Fin n → Fin n → List α × α}
    (h : r.Lists table) (hn : r.npoints = n * n * n) (hlen : table.length = n * n * n)
    (hentry : ∀ i j k : Fin n, table[((i * n + j) * n + k : Nat)]? = some (entry i j k)) :
    r.Numbered (n * n * n) (triplePosition n)
      fun a => ⟨(entry a.1 a.2.1 a.2.2).1, some (entry a.1 a.2.1 a.2.2).2⟩ where
  npoints_eq := hn
  length_points := by rw [h.points_eq, List.length_map, hlen]
  point_eq a := by rw [triplePosition, h.points_eq, List.getElem?_map, hentry, Option.map_some]
  covers k hk := by
    obtain ⟨m, c, rfl⟩ := exists_digits hk
    obtain ⟨a, b, hm⟩ := exists_digits m.isLt
    exact ⟨(a, b, c), by rw [triplePosition, ← hm]⟩

/-! ## Product rules -/

variable [Scalar α] (x w xs ws xt wt xr wr : Fin n → α)

/-- The point of the square for a pair of nodes. -/
def squarePoint (a : Fin n × Fin n) : Point α := ⟨[x a.1, x a.2], some (w a.1 * w a.2)⟩

/-- The point of the cube for a triple of nodes. -/
def cubePoint (a : Fin n × Fin n × Fin n) : Point α :=
  ⟨[x a.1, x a.2.1, x a.2.2], some (w a.1 * w a.2.1 * w a.2.2)⟩

/-- The point of the triangle for a node of `t` and one of `s`. -/
def trianglePoint (a : Fin n × Fin n) : Point α :=
  ⟨[xs a.2 * (1 - xt a.1), xt a.1], some (ws a.2 * wt a.1)⟩

/-- The point of the tetrahedron for a node of `r`, one of `t` and one of `s`. -/
def tetrahedronPoint (a : Fin n × Fin n × Fin n) : Point α :=
  ⟨[xs a.2.2 * (1 - xt a.2.1) * (1 - xr a.1), xt a.2.1 * (1 - xr a.1), xr a.1],
    some (ws a.2.2 * wt a.2.1 * wr a.1)⟩

variable {x w xs ws xt wt xr wr}

section Tensor

variable {line : Rule α} (hn : line.npoints = n) (h : line.Reads x w)

include hn h

theorem numbered_quadrilateral :
    (quadrilateral line).Numbered (n * n) (pairPosition n) (squarePoint x w) := by
  have hlists : (quadrilateral line).Lists (squareTable (paired x w)) :=
    lists_quadrilateral (by simp [h.1]) (by simp [weightList, h.2])
  have hentry (i j : Fin n) : (squareTable (paired x w))[(i * n + j : Nat)]? =
      some ([x i, x j], w i * w j) := getElem?_pairs ..
  exact hlists.numbered_pairs (by simp [quadrilateral, hn]) (by simp [length_squareTable]) hentry

theorem numbered_hexahedron :
    (hexahedron line).Numbered (n * n * n) (triplePosition n) (cubePoint x w) := by
  have hlists : (hexahedron line).Lists (cubeTable (paired x w)) :=
    lists_hexahedron (by simp [h.1]) (by simp [weightList, h.2])
  have hentry (i j k : Fin n) : (cubeTable (paired x w))[((i * n + j) * n + k : Nat)]? =
      some ([x i, x j, x k], w i * w j * w k) := getElem?_triples ..
  exact hlists.numbered_triples (by simp [hexahedron, hn]) (by simp [length_cubeTable]) hentry

end Tensor

section Collapsed

variable {s t r : UnitRule α}

theorem numbered_triangle (hs : s.Reads xs ws) (ht : t.Reads xt wt) :
    (triangle n s t).Numbered (n * n) (pairPosition n) (trianglePoint xs ws xt wt) := by
  have hentry (j i : Fin n) : (triangleTable (paired xs ws) (paired xt wt))[(j * n + i : Nat)]? =
      some ([xs i * (1 - xt j), xt j], ws i * wt j) := getElem?_pairs ..
  exact (lists_triangle hs.lists ht.lists).numbered_pairs rfl (by simp [length_triangleTable])
    hentry

theorem numbered_tetrahedron (hs : s.Reads xs ws) (ht : t.Reads xt wt) (hr : r.Reads xr wr) :
    (tetrahedron n s t r).Numbered (n * n * n) (triplePosition n)
      (tetrahedronPoint xs ws xt wt xr wr) := by
  have hentry (k j i : Fin n) : (tetrahedronTable (paired xs ws) (paired xt wt)
      (paired xr wr))[((k * n + j) * n + i : Nat)]? =
        some ([xs i * (1 - xt j) * (1 - xr k), xt j * (1 - xr k), xr k], ws i * wt j * wr k) :=
    getElem?_triples ..
  exact (lists_tetrahedron hs.lists ht.lists hr.lists).numbered_triples rfl
    (by simp [length_tetrahedronTable]) hentry

end Collapsed

end Rule

end Cubature
