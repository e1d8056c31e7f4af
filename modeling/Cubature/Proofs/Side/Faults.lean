import Cubature.Proofs.Registry.Request
import Cubature.Proofs.Side.Build

/-!
# Which topologies have side sets

A topology is described by its caller, and each question about it may go unanswered. A side set is
built exactly if the description is sound, and otherwise the first check that fails decides the
error.

* `Topology.WellFormed`: what the description must say.
* `Topology.Fault`: the first check that the description fails, with its error. A description is
  well formed or has a fault (`Topology.wellFormed_or_fault`).
* `buildSideSet_ok_iff`, `buildSideSet_error_iff`: a set is built exactly from well-formed
  descriptions, and building fails with the error of the fault.
-/

namespace Cubature

namespace Topology

variable {α : Type} {t : Topology α} {maxOrder order i : Nat}

/-! ## Sound sides and faults -/

/-- The shape of a side is known, and its name stands for an element. -/
def HasShape (t : Topology α) (i : Nat) (e : ReferenceElement) : Prop :=
  ∃ shape, t.sideShape? i = some shape ∧ shape ∈ e.names

/-- The coordinates of a vertex are known, and there are as many as the element has dimensions. -/
def Locates (t : Topology α) (v : Nat) : Prop :=
  ∃ coords, t.vertexCoords? v = some coords ∧ coords.length = t.dim

/-- The number of coordinates that are known of a vertex. -/
def coordCount (t : Topology α) (v : Nat) : Nat := (t.vertexCoords? v).elim 0 List.length

/-- A side from which rules are built: it has the shape of a line, a triangle or a square, the order
lies within the limits, and the side has as many vertices as its shape has corners, each of them
located. -/
def SoundSide (t : Topology α) (maxOrder order i : Nat) : Prop :=
  ∃ e vertices, t.HasShape i e ∧ (1 ≤ order ∧ order ≤ maxOrder) ∧
    t.sideVertices? i = some vertices ∧ e.kind.cornerCount? = some vertices.length ∧
    ∀ v ∈ vertices, t.Locates v

/-- The description of an element of dimension at least two, all of whose sides are sound. -/
structure WellFormed (t : Topology α) (maxOrder order : Nat) : Prop where
  two_le_dim : 2 ≤ t.dim
  side : ∀ i, i < t.numSides → t.SoundSide maxOrder order i

/-- The first check that a side fails, and the error. The checks are made in the order of the cases,
and each case says that the checks before it are passed. -/
inductive SideFault (t : Topology α) (maxOrder order i : Nat) : RuleError → Prop where
  | shape (h : t.sideShape? i = none) :
    SideFault t maxOrder order i (.sideOutOfRange i t.numSides)
  | name {shape : String} (hshape : t.sideShape? i = some shape)
    (h : ∀ e : ReferenceElement, shape ∉ e.names) :
    SideFault t maxOrder order i (.unknownTopology shape)
  | order {e : ReferenceElement} (hshape : t.HasShape i e) (h : order = 0 ∨ maxOrder < order) :
    SideFault t maxOrder order i (.invalidOrder order maxOrder)
  | vertices {e : ReferenceElement} (hshape : t.HasShape i e)
    (horder : 1 ≤ order ∧ order ≤ maxOrder) (h : t.sideVertices? i = none) :
    SideFault t maxOrder order i (.sideOutOfRange i t.numSides)
  | vertex {e : ReferenceElement} {before later : List Nat} {v : Nat} (hshape : t.HasShape i e)
    (horder : 1 ≤ order ∧ order ≤ maxOrder)
    (hvertices : t.sideVertices? i = some (before ++ v :: later))
    (hbefore : ∀ u ∈ before, t.Locates u) (h : ¬t.Locates v) :
    SideFault t maxOrder order i (.shapeMismatch "vertex coordinates" t.dim (t.coordCount v))
  | kind {e : ReferenceElement} {vertices : List Nat} (hshape : t.HasShape i e)
    (horder : 1 ≤ order ∧ order ≤ maxOrder) (hvertices : t.sideVertices? i = some vertices)
    (hlocates : ∀ v ∈ vertices, t.Locates v) (h : e.kind.cornerCount? = none) :
    SideFault t maxOrder order i (.unsupported "side mapping" e.kind.name)
  | count {e : ReferenceElement} {vertices : List Nat} {n : Nat} (hshape : t.HasShape i e)
    (horder : 1 ≤ order ∧ order ≤ maxOrder) (hvertices : t.sideVertices? i = some vertices)
    (hlocates : ∀ v ∈ vertices, t.Locates v) (hcount : e.kind.cornerCount? = some n)
    (h : n ≠ vertices.length) :
    SideFault t maxOrder order i (.shapeMismatch "side vertices" n vertices.length)

/-- The first check that a description fails, and the error: the dimension is checked first, then
the sides one by one. -/
inductive Fault (t : Topology α) (maxOrder order : Nat) : RuleError → Prop where
  | dim (h : t.dim < 2) : Fault t maxOrder order (.unsupported "side_rule" Kind.line.name)
  | side {i : Nat} {cause : RuleError} (hdim : 2 ≤ t.dim) (hi : i < t.numSides)
    (hbefore : ∀ j < i, t.SoundSide maxOrder order j)
    (h : t.SideFault maxOrder order i cause) : Fault t maxOrder order cause

/-- There is a first vertex that is not located, or all are. -/
theorem exists_first_or_locates (t : Topology α) (vertices : List Nat) :
    (∃ before v later, vertices = before ++ v :: later ∧ (∀ u ∈ before, t.Locates u) ∧
      ¬t.Locates v) ∨ ∀ v ∈ vertices, t.Locates v := by
  induction vertices with
  | nil => simp
  | cons v vertices ih =>
    by_cases hv : t.Locates v
    · rcases ih with ⟨before, u, later, rfl, hbefore, hu⟩ | h
      · exact .inl ⟨v :: before, u, later, rfl, List.forall_mem_cons.mpr ⟨hv, hbefore⟩, hu⟩
      · exact .inr (List.forall_mem_cons.mpr ⟨hv, h⟩)
    · exact .inl ⟨[], v, vertices, rfl, by simp, hv⟩

theorem soundSide_or_fault (t : Topology α) (maxOrder order i : Nat) :
    t.SoundSide maxOrder order i ∨ ∃ cause, t.SideFault maxOrder order i cause := by
  cases hs : t.sideShape? i with
  | none => exact .inr ⟨_, .shape hs⟩
  | some shape =>
    by_cases hname : ∀ e : ReferenceElement, shape ∉ e.names
    · exact .inr ⟨_, .name hs hname⟩
    obtain ⟨e, he⟩ := Classical.not_forall_not.mp hname
    have hshape : t.HasShape i e := ⟨shape, hs, he⟩
    by_cases hrange : order = 0 ∨ maxOrder < order
    · exact .inr ⟨_, .order hshape hrange⟩
    have horder : 1 ≤ order ∧ order ≤ maxOrder := by omega
    cases hv : t.sideVertices? i with
    | none => exact .inr ⟨_, .vertices hshape horder hv⟩
    | some vertices =>
      rcases t.exists_first_or_locates vertices with ⟨before, v, later, rfl, hbefore, h⟩ | hlocates
      · exact .inr ⟨_, .vertex hshape horder hv hbefore h⟩
      cases hcount : e.kind.cornerCount? with
      | none => exact .inr ⟨_, .kind hshape horder hv hlocates hcount⟩
      | some n =>
        by_cases hn : n = vertices.length
        · exact .inl ⟨e, vertices, hshape, horder, hv, hn ▸ hcount, hlocates⟩
        · exact .inr ⟨_, .count hshape horder hv hlocates hcount hn⟩

theorem sound_or_first_fault (t : Topology α) (maxOrder order n : Nat) :
    (∀ i < n, t.SoundSide maxOrder order i) ∨ ∃ i cause, i < n ∧
      (∀ j < i, t.SoundSide maxOrder order j) ∧ t.SideFault maxOrder order i cause := by
  induction n with
  | zero => exact .inl fun i hi => absurd hi (Nat.not_lt_zero i)
  | succ n ih =>
    rcases ih with hsound | ⟨i, cause, hi, h⟩
    · rcases t.soundSide_or_fault maxOrder order n with hn | ⟨cause, hn⟩
      · refine .inl fun i hi => ?_
        rcases Nat.lt_succ_iff_lt_or_eq.mp hi with hi | rfl
        · exact hsound i hi
        · exact hn
      · exact .inr ⟨n, cause, Nat.lt_succ_self n, hsound, hn⟩
    · exact .inr ⟨i, cause, Nat.lt_succ_of_lt hi, h⟩

/-- A description is well formed or fails some check first. -/
theorem wellFormed_or_fault (t : Topology α) (maxOrder order : Nat) :
    t.WellFormed maxOrder order ∨ ∃ cause, t.Fault maxOrder order cause := by
  by_cases hdim : t.dim < 2
  · exact .inr ⟨_, .dim hdim⟩
  · rcases t.sound_or_first_fault maxOrder order t.numSides with h | ⟨i, cause, hi, hbefore, h⟩
    · exact .inl ⟨by omega, h⟩
    · exact .inr ⟨cause, .side (by omega) hi hbefore h⟩

/-! ## Answers -/

/-- The rules of the sides, and the same rules carried into the element, fit one table each. -/
structure FitsTables (t : Topology α) (maxOrder order : Nat) : Prop where
  numSides_lt : t.numSides < Size.tableLimit
  side : ∀ {i : Nat} {e : ReferenceElement}, i < t.numSides → t.HasShape i e → order ≤ maxOrder →
    e.kind.coordCount order < Size.tableLimit ∧
      (e.kind.pointCount? order).getD 0 * t.dim < Size.tableLimit

/-- An accepted name stands for the kind of its element. -/
theorem ofElement_eq_ok {shape : String} {e : ReferenceElement} (h : shape ∈ e.names) :
    Kind.ofElement shape = .ok e.kind := by
  rw [Kind.ofElement, ReferenceElement.ofName, ReferenceElement.ofName?_eq_some_iff.mpr h]

theorem ofElement_eq_error {shape : String} (h : ∀ e : ReferenceElement, shape ∉ e.names) :
    Kind.ofElement shape = .error (.rejected (.unknownTopology shape)) := by
  have hnone : ReferenceElement.ofName? shape = none := by
    rw [Option.eq_none_iff_forall_ne_some]
    exact fun e he => h e (ReferenceElement.ofName?_eq_some_iff.mp he)
  rw [Kind.ofElement, ReferenceElement.ofName, hnone]

theorem Locates.exists_vertex {v : Nat} (h : t.Locates v) : ∃ coords, t.vertex v = .ok coords := by
  obtain ⟨coords, hcoords⟩ := h
  exact ⟨coords, vertex_eq_ok_iff.mpr hcoords⟩

theorem vertex_eq_error {v : Nat} (h : ¬t.Locates v) :
    t.vertex v =
      .error (.rejected (.shapeMismatch "vertex coordinates" t.dim (t.coordCount v))) := by
  unfold vertex coordCount
  cases hv : t.vertexCoords? v with
  | none => rfl
  | some coords => exact if_neg fun hlen => h ⟨coords, hv, hlen⟩

theorem sideCorners_eq_ok {vertices : List Nat} (hvertices : t.sideVertices? i = some vertices)
    (h : ∀ v ∈ vertices, t.Locates v) :
    ∃ corners, t.sideCorners i = .ok corners ∧ corners.length = vertices.length := by
  have hvertex : ∀ v ∈ vertices, t.vertex v = .ok ((t.vertexCoords? v).getD []) := by
    intro v hv
    obtain ⟨coords, hcoords, hlen⟩ := h v hv
    exact vertex_eq_ok_iff.mpr ⟨by rw [hcoords]; rfl, by rw [hcoords]; exact hlen⟩
  refine ⟨vertices.map fun v => (t.vertexCoords? v).getD [], ?_, List.length_map _⟩
  rw [sideCorners, hvertices]
  exact mapM_eq_ok hvertex

theorem sideCorners_eq_error {before later : List Nat} {v : Nat}
    (hvertices : t.sideVertices? i = some (before ++ v :: later))
    (hbefore : ∀ u ∈ before, t.Locates u) (h : ¬t.Locates v) :
    t.sideCorners i =
      .error (.rejected (.shapeMismatch "vertex coordinates" t.dim (t.coordCount v))) := by
  rw [sideCorners, hvertices]
  exact mapM_eq_error (fun u hu => (hbefore u hu).exists_vertex) (vertex_eq_error h)

end Topology

section Building

variable {t : Topology Float} {order i : Nat} {w : Workshop} {e : ReferenceElement}
  {cause : RuleError}

/-- What is known of a side before it is built: the registry is well kept, the rules fit their
tables, and the element has sides. -/
structure Topology.Ready (t : Topology Float) (order : Nat) (w : Workshop) : Prop where
  wellKept : w.registry.WellKept
  fits : t.FitsTables w.registry.config.maxOrder order
  two_le_dim : 2 ≤ t.dim

/-- Moves keep the workshop ready. -/
theorem Topology.Ready.of_leads {w' : Workshop} (h : t.Ready order w) (hw : w.Leads w') :
    t.Ready order w' :=
  ⟨hw.wellKept h.wellKept, hw.config_eq ▸ h.fits, h.two_le_dim⟩

/-- A side whose shape and order are accepted: a rule of that kind is carried into the element. -/
theorem run_buildSide (h : t.Ready order w) (hi : i < t.numSides) (hshape : t.HasShape i e)
    (horder : 1 ≤ order ∧ order ≤ w.registry.config.maxOrder) :
    ∃ (rule : Shared FloatRule) (w' : Workshop), rule.value.Fits e.kind order ∧
      rule.value.npoints * t.dim < Size.tableLimit ∧
      (buildSide t order i).run w = match parentRule t i rule.value with
        | .ok parent => (.ok ⟨rule, ⟨w'.journal.nextId, parent⟩⟩, w'.issue)
        | .error cause => (.error cause, w') := by
  have hkind : e.kind ≠ .arbitrary := by cases e <;> decide
  obtain ⟨hcoords, hpoints⟩ := h.fits.side hi hshape horder.2
  obtain ⟨rule, w', hrun⟩ := Registry.answers_rule hkind horder.1 horder.2 hcoords w rfl
  have hmoves := Registry.moves_rule e.kind order w
  rw [hrun] at hmoves
  have hrule : rule.value.Fits e.kind order :=
    (hmoves.wellKept h.wellKept).fits (Registry.find?_of_rule hrun)
  rw [hrule.pointCount_eq] at hpoints
  refine ⟨rule, w', hrule, hpoints, ?_⟩
  obtain ⟨shape, hs, hname⟩ := hshape
  unfold buildSide
  rw [hs]
  simp only [run_bind, Work.run_ofExcept, Topology.ofElement_eq_ok hname, hrun]
  cases parentRule t i rule.value <;> rfl

theorem buildSide_of_sound (h : t.Ready order w) (hi : i < t.numSides)
    (hsound : t.SoundSide w.registry.config.maxOrder order i) :
    ∃ side w', (buildSide t order i).run w = (.ok side, w') := by
  obtain ⟨e, vertices, hshape, horder, hvertices, hcount, hlocates⟩ := hsound
  obtain ⟨rule, w', hrule, hsize, hrun⟩ := run_buildSide h hi hshape horder
  obtain ⟨corners, hcorners, hlen⟩ := Topology.sideCorners_eq_ok hvertices hlocates
  have hdim : 0 < t.dim := Nat.lt_of_lt_of_le (by decide) h.two_le_dim
  rw [hrun, parentRule_eq hrule horder.1 hdim hcorners hsize, hcount]
  simp only [hlen, if_true]
  exact ⟨_, _, rfl⟩

theorem buildSide_of_fault (h : t.Ready order w) (hi : i < t.numSides)
    (hfault : t.SideFault w.registry.config.maxOrder order i cause) :
    ((buildSide t order i).run w).1 = .error (.rejected cause) := by
  have hdim : 0 < t.dim := Nat.lt_of_lt_of_le (by decide) h.two_le_dim
  cases hfault with
  | shape hs =>
    unfold buildSide
    rw [hs]
    rfl
  | name hs hname =>
    unfold buildSide
    rw [hs]
    simp only [run_bind, Work.run_ofExcept, Topology.ofElement_eq_error hname]
  | @order e hshape hrange =>
    have hkind : e.kind ≠ .arbitrary := by cases e <;> decide
    obtain ⟨shape, hs, hname⟩ := hshape
    unfold buildSide
    rw [hs]
    simp only [run_bind, Work.run_ofExcept, Topology.ofElement_eq_ok hname, Registry.run_rule,
      Registry.accept_of_outside hkind hrange]
  -- From here on the rule of the side is built, and the fault shows when it is carried.
  | vertices hshape horder hnone =>
    obtain ⟨rule, w', -, -, hrun⟩ := run_buildSide h hi hshape horder
    have hcorners : t.sideCorners i = .error (t.missingSide i) := by
      rw [Topology.sideCorners, hnone]
    rw [hrun, parentRule_of_error hcorners]
    rfl
  | vertex hshape horder hvertices hbefore hv =>
    obtain ⟨rule, w', -, -, hrun⟩ := run_buildSide h hi hshape horder
    rw [hrun, parentRule_of_error (Topology.sideCorners_eq_error hvertices hbefore hv)]
  | kind hshape horder hvertices hlocates hcount =>
    obtain ⟨rule, w', hrule, hsize, hrun⟩ := run_buildSide h hi hshape horder
    obtain ⟨corners, hcorners, -⟩ := Topology.sideCorners_eq_ok hvertices hlocates
    rw [hrun, parentRule_eq hrule horder.1 hdim hcorners hsize, hcount]
  | count hshape horder hvertices hlocates hcount hne =>
    obtain ⟨rule, w', hrule, hsize, hrun⟩ := run_buildSide h hi hshape horder
    obtain ⟨corners, hcorners, hlen⟩ := Topology.sideCorners_eq_ok hvertices hlocates
    rw [hrun, parentRule_eq hrule horder.1 hdim hcorners hsize, hcount]
    simp only [hlen, if_neg hne]

/-- All sides are built if all are sound. -/
theorem buildSidesFrom_of_sound (first count : Nat) (h : t.Ready order w)
    (hlast : first + count ≤ t.numSides)
    (hsound : ∀ i, first ≤ i → i < first + count →
      t.SoundSide w.registry.config.maxOrder order i) :
    ∃ sides w', (buildSidesFrom t order first count).run w = (.ok sides, w') := by
  induction count generalizing first w with
  | zero => exact ⟨[], w, rfl⟩
  | succ count ih =>
    obtain ⟨side, w₁, hside⟩ :=
      buildSide_of_sound h (by omega) (hsound first (Nat.le_refl _) (by omega))
    have hmoves := moves_buildSide t order first w
    rw [hside] at hmoves
    obtain ⟨others, w₂, hothers⟩ := ih (first + 1) (h.of_leads hmoves) (by omega)
      fun j hlo hhi => hmoves.config_eq ▸ hsound j (by omega) (by omega)
    refine ⟨side :: others, w₂, ?_⟩
    rw [buildSidesFrom, run_bind, hside]
    simp only [run_bind, hothers]
    rfl

/-- The first side with a fault decides. -/
theorem buildSidesFrom_of_fault (first count : Nat) (h : t.Ready order w)
    (hlast : first + count ≤ t.numSides)
    (hlo : first ≤ i) (hhi : i < first + count)
    (hbefore : ∀ j, first ≤ j → j < i → t.SoundSide w.registry.config.maxOrder order j)
    (hfault : t.SideFault w.registry.config.maxOrder order i cause) :
    ((buildSidesFrom t order first count).run w).1 = .error (.rejected cause) := by
  induction count generalizing first w with
  | zero => omega
  | succ count ih =>
    rw [buildSidesFrom, run_bind]
    rcases Nat.eq_or_lt_of_le hlo with rfl | hlt
    · have hside := buildSide_of_fault h (by omega) hfault
      generalize (buildSide t order first).run w = out at hside
      obtain ⟨_ | _, w₁⟩ := out <;> cases hside
      rfl
    · obtain ⟨side, w₁, hside⟩ :=
        buildSide_of_sound h (by omega) (hbefore first (Nat.le_refl _) hlt)
      have hmoves := moves_buildSide t order first w
      rw [hside] at hmoves
      have hothers := ih (first + 1) (h.of_leads hmoves) (by omega) hlt (by omega)
        (fun j hlo hhi => hmoves.config_eq ▸ hbefore j (by omega) hhi)
        (hmoves.config_eq ▸ hfault)
      rw [hside]
      simp only [run_bind]
      generalize (buildSidesFrom t order (first + 1) count).run w₁ = out at hothers
      obtain ⟨_ | _, w₂⟩ := out <;> cases hothers
      rfl

variable {name : String} {base : Shared FloatRule}

theorem buildSideSet_of_wellFormed (name : String) (hw : w.registry.WellKept)
    (hfits : t.FitsTables w.registry.config.maxOrder base.value.order)
    (h : t.WellFormed w.registry.config.maxOrder base.value.order) :
    ∃ set w', (buildSideSet name t base).run w = (.ok set, w') := by
  have hready : t.Ready base.value.order w := ⟨hw, hfits, h.two_le_dim⟩
  obtain ⟨sides, w', hsides⟩ := buildSidesFrom_of_sound 0 t.numSides hready
    (by omega) fun i _ hi => h.side i (by omega)
  refine ⟨⟨name, base, sides⟩, w', ?_⟩
  rw [buildSideSet, if_neg (by have := h.two_le_dim; omega), run_bind, Work.run_ofExcept,
    Size.table_eq_ok hfits.numSides_lt]
  simp only [run_bind, hsides]
  rfl

theorem buildSideSet_of_fault (hw : w.registry.WellKept)
    (hfits : t.FitsTables w.registry.config.maxOrder base.value.order)
    (h : t.Fault w.registry.config.maxOrder base.value.order cause) :
    ((buildSideSet name t base).run w).1 = .error (.rejected cause) := by
  cases h with
  | dim hdim =>
    rw [buildSideSet, if_pos hdim]
    rfl
  | side hdim hi hbefore hfault =>
    have hready : t.Ready base.value.order w := ⟨hw, hfits, hdim⟩
    have hsides := buildSidesFrom_of_fault 0 t.numSides hready (by omega)
      (Nat.zero_le _) (by omega) (fun j _ hj => hbefore j hj) hfault
    rw [buildSideSet, if_neg (by omega), run_bind, Work.run_ofExcept,
      Size.table_eq_ok hfits.numSides_lt]
    simp only [run_bind]
    generalize (buildSidesFrom t base.value.order 0 t.numSides).run w = out at hsides
    obtain ⟨_ | _, w'⟩ := out <;> cases hsides
    rfl

/-- A set is built exactly from a description that is well formed. -/
theorem buildSideSet_ok_iff (hw : w.registry.WellKept)
    (hfits : t.FitsTables w.registry.config.maxOrder base.value.order) :
    (∃ set, ((buildSideSet name t base).run w).1 = .ok set) ↔
      t.WellFormed w.registry.config.maxOrder base.value.order := by
  constructor
  · rintro ⟨set, hset⟩
    rcases t.wellFormed_or_fault w.registry.config.maxOrder base.value.order with h | ⟨cause, h⟩
    · exact h
    · rw [buildSideSet_of_fault hw hfits h] at hset
      cases hset
  · intro h
    obtain ⟨set, w', hrun⟩ := buildSideSet_of_wellFormed name hw hfits h
    exact ⟨set, by rw [hrun]⟩

/-- Otherwise the error is that of the first check that fails. -/
theorem buildSideSet_error_iff (hw : w.registry.WellKept)
    (hfits : t.FitsTables w.registry.config.maxOrder base.value.order) {failure : Failure} :
    ((buildSideSet name t base).run w).1 = .error failure ↔
      ∃ cause, failure = .rejected cause ∧
        t.Fault w.registry.config.maxOrder base.value.order cause := by
  constructor
  · intro hfailure
    rcases t.wellFormed_or_fault w.registry.config.maxOrder base.value.order with h | ⟨cause, h⟩
    · obtain ⟨set, w', hrun⟩ := buildSideSet_of_wellFormed name hw hfits h
      rw [hrun] at hfailure
      cases hfailure
    · rw [buildSideSet_of_fault hw hfits h] at hfailure
      exact ⟨cause, (Except.error.inj hfailure).symm, h⟩
  · rintro ⟨cause, rfl, h⟩
    exact buildSideSet_of_fault hw hfits h

end Building

end Cubature
