import Cubature.Proofs.Rule.Shape

/-!
# Root searches with more steps

A root search that ends within its limit ends at the same point under every larger limit
(`newton_of_converged`): the steps are the same, and the search ends at the first one that is small
enough. So a larger limit changes only the nodes whose search stalled (`rule_of_raised`), and
nothing at all if none did (`rule_eq_of_raised`).

Nothing is assumed of the numbers or of where the searches start. A step that is not a number is
not small enough and ends no search.
-/

namespace Cubature.Gauss

open scoped Scalar

variable {α : Type} [Scalar α] {limits limits' : Limits α} {n i j : Nat} {z a scale : α}

/-! ## One search -/

/-- A search that converged ends at the same point if it may take more steps. -/
theorem newton_of_converged {f : α → Jet α} {tolerance : α} {steps steps' : Nat}
    (hle : steps ≤ steps') (h : (newton f tolerance steps z).converged = true) :
    newton f tolerance steps' z = newton f tolerance steps z := by
  induction steps generalizing z steps' with
  | zero => cases h
  | succ steps ih =>
    obtain ⟨more, rfl⟩ : ∃ more, steps' = more + 1 := ⟨steps' - 1, by omega⟩
    rw [newton] at h
    rw [newton, newton]
    by_cases hstep : Scalar.le (Scalar.abs ((f z).value / (f z).slope)) tolerance
    · simp only [if_pos hstep]
    · simp only [if_neg hstep] at h ⊢
      exact ih (Nat.le_of_succ_le_succ hle) h

/-- Other limits have the same tolerance and allow no fewer steps. -/
structure Limits.RaisedTo (limits limits' : Limits α) : Prop where
  tolerance_eq : limits'.tolerance = limits.tolerance
  iterations_le : limits.iterations ≤ limits'.iterations

theorem Limits.RaisedTo.refine_eq (h : limits.RaisedTo limits') {f : α → Jet α}
    (hc : (limits.refine f z).converged = true) : limits'.refine f z = limits.refine f z := by
  unfold Limits.refine at hc ⊢
  rw [h.tolerance_eq]
  exact newton_of_converged h.iterations_le hc

theorem Limits.RaisedTo.legendreNode_eq (h : limits.RaisedTo limits')
    (hc : (legendreNode limits n z).converged = true) :
    legendreNode limits' n z = legendreNode limits n z := by
  unfold legendreNode
  rw [h.refine_eq hc]

theorem Limits.RaisedTo.jacobiNode_eq (h : limits.RaisedTo limits')
    (hc : (jacobiNode limits n a scale z).converged = true) :
    jacobiNode limits' n a scale z = jacobiNode limits n a scale z := by
  unfold jacobiNode
  rw [h.refine_eq hc]

/-! ## All searches -/

omit [Scalar α] in
theorem mem_stalledPositions {nodes : List (Node α)} :
    i ∈ stalledPositions nodes ↔ ∃ node, nodes[i]? = some node ∧ node.converged = false := by
  simp [stalledPositions, List.mem_zipIdx_iff_getElem?]

/-- The searches that converged are made again and find the same nodes. -/
def Refound (nodes nodes' : List (Node α)) : Prop :=
  ∀ i, i ∉ stalledPositions nodes → nodes'[i]? = nodes[i]?

omit [Scalar α] in
theorem refound_map {f f' : Nat → Node α} (h : ∀ i, (f i).converged = true → f' i = f i) (m : Nat) :
    Refound ((List.range m).map f) ((List.range m).map f') := by
  intro i hi
  rcases Nat.lt_or_ge i m with him | him
  · have hconverged : (f i).converged = true := by
      refine Bool.not_eq_false _ ▸ fun hc => hi (mem_stalledPositions.mpr ⟨f i, ?_, hc⟩)
      simp [him]
    simp [him, h i hconverged]
  · simp [him]

omit [Scalar α] in
theorem Refound.stalled {nodes nodes' : List (Node α)} (h : Refound nodes nodes')
    (hi : i ∉ stalledPositions nodes) : i ∉ stalledPositions nodes' := by
  rw [mem_stalledPositions, h i hi]
  exact mt mem_stalledPositions.mpr hi

omit [Scalar α] in
theorem Refound.getElem?_map_eq {β : Type} {nodes nodes' : List (Node α)} (h : Refound nodes nodes')
    (hi : i ∉ stalledPositions nodes) (f : Node α → β) :
    (nodes'.map f)[i]? = (nodes.map f)[i]? := by
  rw [List.getElem?_map, List.getElem?_map, h i hi]

/-! ## Rules -/

/-- The search that finds the node at a place of a rule. Legendre nodes come in pairs `±z`, from the
ends of the rule to its middle. -/
def searchOf (alpha : UInt32) (n j : Nat) : Nat := if alpha = 0 then min j (n - 1 - j) else j

/-- What is left of a rule whose searches are made again: a search that did not stall does not
stall, and its nodes have the same locations and weights. -/
structure Nodes.Refound (nodes nodes' : Nodes α) (alpha : UInt32) (n : Nat) : Prop where
  stalled : ∀ {i : Nat}, i ∉ nodes.stalled → i ∉ nodes'.stalled
  location_eq : ∀ {j : Nat}, j < n → searchOf alpha n j ∉ nodes.stalled →
    nodes'.locations[j]? = nodes.locations[j]?
  weight_eq : ∀ {j : Nat}, j < n → searchOf alpha n j ∉ nodes.stalled →
    nodes'.weights[j]? = nodes.weights[j]?

omit [Scalar α] in
/-- A list and its mirror image without the middle, by the places of the list. -/
theorem getElem?_mirrored {β : Type} {upper : List (Node α)} (f g : Node α → β)
    (hlen : upper.length = (n + 1) / 2) (hj : j < n) :
    ((upper.take (n / 2)).map f ++ upper.reverse.map g)[j]? =
      upper[min j (n - 1 - j)]?.map (if j < n / 2 then f else g) := by
  have htake : ((upper.take (n / 2)).map f).length = n / 2 := by
    rw [List.length_map, List.length_take]
    omega
  by_cases hlow : j < n / 2
  · have hmin : min j (n - 1 - j) = j := by omega
    rw [if_pos hlow, hmin, List.getElem?_append_left (by omega), List.getElem?_map,
      List.getElem?_take_of_lt hlow]
  · have hmin : min j (n - 1 - j) = upper.length - 1 - (j - n / 2) := by omega
    rw [if_neg hlow, hmin, List.getElem?_append_right (by omega), htake, List.getElem?_map,
      List.getElem?_reverse (by omega)]

theorem Limits.RaisedTo.refound_legendreNodes (h : limits.RaisedTo limits') (start : Nat → α)
    (n : Nat) :
    (legendreNodes start limits n).Refound (legendreNodes start limits' n) 0 n := by
  have hupper : Gauss.Refound (legendreUpper start limits n) (legendreUpper start limits' n) :=
    refound_map (fun _ hc => h.legendreNode_eq hc) _
  have hlen := length_legendreUpper start limits n
  have hlen' := length_legendreUpper start limits' n
  refine ⟨hupper.stalled, fun {j} hj hsearch => ?_, fun {j} hj hsearch => ?_⟩
  · rw [legendreNodes, legendreNodes, getElem?_mirrored _ _ hlen hj, getElem?_mirrored _ _ hlen' hj,
      hupper (min j (n - 1 - j)) hsearch]
  · rw [legendreNodes, legendreNodes, getElem?_mirrored _ _ hlen hj, getElem?_mirrored _ _ hlen' hj,
      hupper (min j (n - 1 - j)) hsearch]

theorem Limits.RaisedTo.refound_jacobiNodes (h : limits.RaisedTo limits') {alpha : UInt32}
    (halpha : alpha ≠ 0) (n : Nat) (a scale : α) :
    (jacobiNodes limits n a scale).Refound (jacobiNodes limits' n a scale) alpha n := by
  have hnodes := refound_map (fun k (hc : (jacobiNode limits n a scale
    (eigenvalue (jacobiRows n a) k)).converged = true) => h.jacobiNode_eq hc) n
  have hsearch : ∀ j, searchOf alpha n j = j := fun j => if_neg halpha
  refine ⟨hnodes.stalled, fun {j} _ hj => ?_, fun {j} _ hj => ?_⟩
  · exact hnodes.getElem?_map_eq (hsearch j ▸ hj) Node.location
  · exact hnodes.getElem?_map_eq (hsearch j ▸ hj) Node.weight

/-- Under raised limits there is a rule whenever there was one, and all that was found is found
again. -/
theorem rule_of_raised {start : Nat → Nat → α} {alpha : UInt32} {nodes : Nodes α}
    (h : limits.RaisedTo limits') (hrule : rule start limits n alpha = .ok nodes) :
    ∃ nodes', rule start limits' n alpha = .ok nodes' ∧ nodes.Refound nodes' alpha n := by
  unfold rule at hrule ⊢
  split at hrule
  · cases hrule
  rename_i hn
  rw [if_neg hn]
  split at hrule
  · cases hrule
  by_cases halpha : alpha = 0
  · subst halpha
    simp only [if_true] at hrule ⊢
    cases hrule
    exact ⟨_, rfl, h.refound_legendreNodes (start n) n⟩
  · simp only [if_neg halpha] at hrule ⊢
    split at hrule <;> cases hrule
    exact ⟨_, rfl, h.refound_jacobiNodes halpha n _ _⟩

/-- If no search stalled, the rule is the same. -/
theorem rule_eq_of_raised {start : Nat → Nat → α} {alpha : UInt32} {nodes : Nodes α}
    (h : limits.RaisedTo limits') (hrule : rule start limits n alpha = .ok nodes)
    (hstalled : nodes.stalled = []) : rule start limits' n alpha = .ok nodes := by
  obtain ⟨nodes', hrule', hrefound⟩ := rule_of_raised h hrule
  obtain ⟨-, hl, hw⟩ := length_rule hrule
  obtain ⟨-, hl', hw'⟩ := length_rule hrule'
  have hsearch : ∀ i, i ∉ nodes.stalled := by simp [hstalled]
  have hlocations : nodes'.locations = nodes.locations :=
    List.ext_getElem? fun j => by
      rcases Nat.lt_or_ge j n with hj | hj
      · exact hrefound.location_eq hj (hsearch _)
      · rw [List.getElem?_eq_none (by omega), List.getElem?_eq_none (by omega)]
  have hweights : nodes'.weights = nodes.weights :=
    List.ext_getElem? fun j => by
      rcases Nat.lt_or_ge j n with hj | hj
      · exact hrefound.weight_eq hj (hsearch _)
      · rw [List.getElem?_eq_none (by omega), List.getElem?_eq_none (by omega)]
  have hstalled' : nodes'.stalled = nodes.stalled := by
    rw [hstalled, List.eq_nil_iff_forall_not_mem]
    exact fun i => hrefound.stalled (hsearch i)
  rw [hrule']
  cases nodes
  cases nodes'
  simp_all

end Cubature.Gauss
