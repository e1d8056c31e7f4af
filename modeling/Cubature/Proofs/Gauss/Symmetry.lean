import Cubature.Proofs.Gauss.Convergence
import Cubature.Proofs.Gauss.Exact

/-!
# Symmetric rules

A Gauss–Legendre rule is its own mirror image, wherever its searches start and whether they
converge or not.

* `Nodes.Mirrored`, `mirrored_legendreNodes`: in any arithmetic, nodes in the lower half are the
  mirrored ones with the sign changed, and mirrored nodes have the same weight.
* `middle_legendreNodes`: in exact arithmetic the middle node of an odd number is zero, since the
  search for it starts at a root, which every step keeps (`root_newton_of_root`). So odd functions
  have the sum zero (`sum_odd_eq_zero`).
-/

namespace Cubature.Gauss

/-! ## In any arithmetic -/

/-- A rule of `n` nodes and weights that is its own mirror image, the middle node apart. -/
structure Nodes.Mirrored {α : Type} [Neg α] (nodes : Nodes α) (n : Nat) : Prop where
  length_locations : nodes.locations.length = n
  length_weights : nodes.weights.length = n
  weight_eq : ∀ i < n, nodes.weights[n - 1 - i]? = nodes.weights[i]?
  location_eq : ∀ i < n / 2, nodes.locations[i]? = nodes.locations[n - 1 - i]?.map (-·)

section Any

variable {α : Type} [Scalar α]

theorem mirrored_legendreNodes (start : Nat → α) (limits : Limits α) (n : Nat) :
    (legendreNodes start limits n).Mirrored n := by
  have hlen := length_legendreUpper start limits n
  obtain ⟨hlocations, hweights⟩ := length_legendreNodes start limits n
  refine ⟨hlocations, hweights, fun i hi => ?_, fun i hi => ?_⟩
  · have hmin : min (n - 1 - i) (n - 1 - (n - 1 - i)) = min i (n - 1 - i) := by omega
    rw [legendreNodes, getElem?_mirrored _ _ hlen (by omega), getElem?_mirrored _ _ hlen hi, hmin,
      ite_self, ite_self]
  · have hmin : min (n - 1 - i) (n - 1 - (n - 1 - i)) = min i (n - 1 - i) := by omega
    rw [legendreNodes, getElem?_mirrored _ _ hlen (by omega), getElem?_mirrored _ _ hlen (by omega),
      hmin, if_pos hi, if_neg (by omega), Option.map_map]
    rfl

/-- A request for a rule of at least one point gives this rule, if its tables fit. -/
theorem rule_legendre (start : Nat → Nat → α) (limits : Limits α) {n : Nat} (hn : 1 ≤ n) :
    rule start limits n 0 = (Size.table n).map fun _ => legendreNodes (start n) limits n := by
  unfold rule
  rw [if_neg (by omega)]
  cases Size.table n <;> rfl

end Any

/-! ## Odd functions -/

section Odd

/-- A list whose entry at each place gives the one at the mirrored place. -/
theorem reverse_eq_map {α : Type} {l : List α} {f : α → α} {n : ℕ} (hlen : l.length = n)
    (h : ∀ i < n, l[n - 1 - i]? = l[i]?.map f) : l.reverse = l.map f := by
  refine List.ext_getElem? fun i => ?_
  rw [List.getElem?_map]
  rcases Nat.lt_or_ge i n with hi | hi
  · rw [List.getElem?_reverse (by omega), hlen, h i hi]
  · rw [List.getElem?_eq_none (by simp [hlen, hi]), List.getElem?_eq_none (by simp [hlen, hi]),
      Option.map_none]

variable {K : Type} [Field K] {nodes : Nodes K} {n : ℕ}

/-- With a middle node that is zero the rule is its own mirror image throughout. -/
theorem Nodes.Mirrored.location_neg (h : nodes.Mirrored n)
    (hmiddle : Odd n → nodes.locations[n / 2]? = some 0) {i : ℕ} (hi : i < n) :
    nodes.locations[n - 1 - i]? = nodes.locations[i]?.map (-·) := by
  rcases Nat.lt_trichotomy i (n - 1 - i) with hlow | hmid | hhigh
  · rw [h.location_eq i (by omega), Option.map_map, neg_comp_neg, Option.map_id_fun, id_eq]
  · have hodd : Odd n := ⟨i, by omega⟩
    rw [← hmid, show i = n / 2 by omega, hmiddle hodd, Option.map_some, neg_zero]
  · have hmirror := h.location_eq (n - 1 - i) (by omega)
    rwa [show n - 1 - (n - 1 - i) = i by omega] at hmirror

/-- Backwards, the rule has the same weights and the nodes with their sign changed. -/
theorem Nodes.Mirrored.reverse_pairs (h : nodes.Mirrored n)
    (hmiddle : Odd n → nodes.locations[n / 2]? = some 0) :
    nodes.pairs.reverse = nodes.pairs.map fun p => (-p.1, p.2) := by
  have hlocations : nodes.locations.reverse = nodes.locations.map (-·) :=
    reverse_eq_map h.length_locations fun i hi => h.location_neg hmiddle hi
  have hweights : nodes.weights.reverse = nodes.weights.map id := by
    refine reverse_eq_map h.length_weights fun i hi => ?_
    rw [h.weight_eq i hi, Option.map_id, id_eq]
  have hlength : nodes.locations.length = nodes.weights.length :=
    h.length_locations.trans h.length_weights.symm
  rw [Nodes.pairs, List.zip, List.reverse_zipWith hlength, hlocations, hweights]
  exact List.zip_map

/-- An odd function has the sum zero. -/
theorem Nodes.Mirrored.sum_odd_eq_zero [CharZero K] (h : nodes.Mirrored n)
    (hmiddle : Odd n → nodes.locations[n / 2]? = some 0) {f : K → K} (hf : ∀ x, f (-x) = -f x) :
    weightedSum nodes.pairs f = 0 := by
  have hterm (p : K × K) : f (-p.1) * p.2 = -1 * f p.1 * p.2 := by rw [hf, neg_one_mul]
  have hsum : weightedSum nodes.pairs f = -weightedSum nodes.pairs f :=
    calc weightedSum nodes.pairs f = (nodes.pairs.reverse.map fun p => f p.1 * p.2).sum := by
          rw [List.map_reverse, List.sum_reverse, weightedSum]
      _ = weightedSum nodes.pairs fun x => -1 * f x := by
          rw [h.reverse_pairs hmiddle, List.map_map, weightedSum]
          exact congrArg List.sum (List.map_congr_left fun p _ => hterm p)
      _ = -weightedSum nodes.pairs f := by rw [weightedSum_const_mul, neg_one_mul]
  exact self_eq_neg.mp hsum

end Odd

/-! ## In exact arithmetic -/

section Exact

open scoped Scalar.Exact

variable {K : Type} [Field K] [LinearOrder K] {n : ℕ}

/-- A search that starts at a root stays there. -/
theorem root_newton_of_root {f : K → Jet K} {z : K} (h : (f z).value = 0) (tolerance : K)
    (steps : ℕ) : (newton f tolerance steps z).root = z := by
  have hstep : z - (f z).value / (f z).slope = z := by rw [h, zero_div, sub_zero]
  induction steps with
  | zero => rfl
  | succ steps ih =>
    rw [newton]
    simp only [hstep]
    split
    · rfl
    · exact ih

/-- Zero is a root of every polynomial of an odd degree. -/
theorem legendrePair_zero (m : ℕ) : (legendrePair (0 : K) (2 * m)).1 = 0 := by
  induction m with
  | zero => rfl
  | succ m ih =>
    have hbefore : (legendrePair (0 : K) (2 * m + 1)).2 = 0 := ih
    rw [show 2 * (m + 1) = 2 * m + 1 + 1 by ring, legendrePair]
    simp [hbefore]

/-- The middle node of an odd number. -/
theorem middle_legendreNodes (start : ℕ → K) (limits : Limits K) (hn : Odd n) :
    (legendreNodes start limits n).locations[n / 2]? = some 0 := by
  obtain ⟨m, rfl⟩ := hn
  have hlen := length_legendreUpper start limits (2 * m + 1)
  have hhalf : (2 * m + 1) / 2 = m := by omega
  have hsearch : (legendreUpper start limits (2 * m + 1))[m]? =
      some (legendreNode limits (2 * m + 1) 0) := by
    rw [legendreUpper, List.getElem?_map, List.getElem?_range (by omega), Option.map_some,
      if_pos rfl, Scalar.Exact.ofNat_zero]
  have hroot : (legendreNode limits (2 * m + 1) (0 : K)).location = 0 :=
    root_newton_of_root (legendrePair_zero m) _ _
  rw [legendreNodes, getElem?_mirrored _ _ hlen (by omega), hhalf, if_neg (by omega),
    show min m (2 * m + 1 - 1 - m) = m by omega, hsearch, Option.map_some, hroot]

/-- Under all limits, a rule of at least one point has equal weights at mirrored places, and in its
lower half the nodes of the upper half with their sign changed. In exact arithmetic, wherever the
searches start, the middle node of an odd number is zero and odd powers have the sum zero. -/
theorem legendre_symmetric :
    (∀ (limits : Limits Float) (n : ℕ), 1 ≤ n →
      let nodes := legendreNodes (chebyshevStart n) limits n
      floatRule limits n 0 = (Size.table n).map (fun _ => nodes) ∧ nodes.Mirrored n) ∧
    ∀ (K : Type) [Field K] [LinearOrder K] [IsStrictOrderedRing K] (start : ℕ → K)
      (limits : Limits K) (n : ℕ),
      let nodes := legendreNodes start limits n
      (Odd n → nodes.locations[n / 2]? = some 0) ∧
        ∀ m, Odd m → weightedSum nodes.pairs (· ^ m) = 0 := by
  refine ⟨fun limits n hn => ⟨rule_legendre _ _ hn, mirrored_legendreNodes _ _ _⟩, ?_⟩
  intro K _ _ _ start limits n nodes
  have hmiddle : Odd n → nodes.locations[n / 2]? = some 0 := middle_legendreNodes start limits
  refine ⟨hmiddle, fun m hm => ?_⟩
  exact (mirrored_legendreNodes start limits n).sum_odd_eq_zero hmiddle fun x => hm.neg_pow x

/-- Three nodes whose searches may take no step and stall. -/
theorem legendre_symmetric_stalled :
    (legendreNodes (chebyshevStart 3) ⟨0, 0⟩ 3).Mirrored 3 ∧
      let nodes := legendreNodes (fun _ => (1 / 2 : ℚ)) ⟨0, 0⟩ 3
      nodes.stalled = [0, 1] ∧ nodes.locations[1]? = some 0 ∧
        weightedSum nodes.pairs (· ^ 5) = 0 := by
  obtain ⟨hfloat, hexact⟩ := legendre_symmetric
  obtain ⟨hmiddle, hsum⟩ := hexact ℚ (fun _ => 1 / 2) ⟨0, 0⟩ 3
  exact ⟨(hfloat ⟨0, 0⟩ 3 (by decide)).2, rfl, hmiddle (by decide), hsum 5 (by decide)⟩

end Exact

end Cubature.Gauss
