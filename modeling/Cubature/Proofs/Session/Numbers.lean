import Cubature.Proofs.Session.Carried
import Cubature.Proofs.Session.Ownership

/-!
# Numbers of rules

Rules are told apart by their numbers alone, and rules of every origin draw on the same numbers. A
number that was issued to a rule that no registry built is never that of a kept rule
(`Session.Unkept`, `Arises.unkept`). So a rule of a run that has the number of a kept rule is the
kept rule (`Arises.eq_of_holds`).

A rule that no registry built was brought by one request of the run, under a number that was issued
then (`Session.Brings`), so rules of a run that have the same number are the same
(`Arises.eq_of_id`).
-/

namespace Cubature

/-! ## Work -/

namespace Workshop

variable {w w' : Workshop} {n : Nat}

/-- A number was issued, but not to a kept rule. -/
structure Unkept (w : Workshop) (n : Nat) : Prop where
  lt : n < w.journal.nextId
  ne : ∀ {kind order rule}, w.registry.find? kind order = some rule → rule.id ≠ n

/-- Rules that are added have new numbers. -/
theorem Leads.unkept (h : w.Leads w') (hn : w.Unkept n) : w'.Unkept n where
  lt := Nat.lt_of_lt_of_le hn.lt h.grown.nextId_le
  ne hf := by
    rcases h.grown.new hf with hold | ⟨hlo, -⟩
    · exact hn.ne hold
    · exact Nat.ne_of_gt (Nat.lt_of_lt_of_le hn.lt hlo)

theorem Distinct.unkept_issue (hw : w.Distinct) : w.issue.Unkept w.journal.nextId where
  lt := Nat.lt_succ_self _
  ne hf := Nat.ne_of_lt (hw.id_lt hf)

end Workshop

section Build

variable {t : Topology Float} {order i : Nat} {w w' : Workshop} {side : Side}

/-- The rule that is carried into an element has a new number, which is that of no kept rule. -/
theorem unkept_of_buildSide (hw : w.Distinct)
    (h : (buildSide t order i).run w = (.ok side, w')) :
    w.journal.nextId ≤ side.parent.id ∧ w'.Unkept side.parent.id := by
  unfold buildSide at h
  split at h
  · cases h
  obtain ⟨kind, w₁, runKind, h₁⟩ := bind_ok h
  obtain ⟨rule, w₂, runRule, h₂⟩ := bind_ok h₁
  obtain ⟨parent, w₃, runParent, h₃⟩ := bind_ok h₂
  obtain ⟨-, rfl⟩ := Work.ofExcept_ok runKind
  obtain ⟨-, rfl⟩ := Work.ofExcept_ok runParent
  have hmoves := Registry.moves_rule kind order w₁
  rw [runRule] at hmoves
  cases h₃
  exact ⟨hmoves.grown.nextId_le, (hmoves.distinct hw).unkept_issue⟩

theorem unkept_of_buildSidesFrom {first count : Nat} {sides : List Side} (hw : w.Distinct)
    (h : (buildSidesFrom t order first count).run w = (.ok sides, w')) (hside : side ∈ sides) :
    w.journal.nextId ≤ side.parent.id ∧ w'.Unkept side.parent.id := by
  induction count generalizing first w sides with
  | zero =>
    cases h
    cases hside
  | succ count ih =>
    obtain ⟨side₀, w₁, hfirst, h₁⟩ := bind_ok h
    obtain ⟨others, w₂, hothers, h₂⟩ := bind_ok h₁
    cases h₂
    have hmoves := moves_buildSide t order first w
    rw [hfirst] at hmoves
    rcases List.mem_cons.mp hside with rfl | hside
    · obtain ⟨hlo, hunkept⟩ := unkept_of_buildSide hw hfirst
      have hmoves' := moves_buildSidesFrom t order (first + 1) count w₁
      rw [hothers] at hmoves'
      exact ⟨hlo, hmoves'.unkept hunkept⟩
    · obtain ⟨hlo, hunkept⟩ := ih (hmoves.distinct hw) hothers hside
      exact ⟨Nat.le_trans hmoves.grown.nextId_le hlo, hunkept⟩

theorem unkept_of_buildSideSet {name : String} {base : Shared FloatRule} {set : SideSet}
    (hw : w.Distinct) (h : (buildSideSet name t base).run w = (.ok set, w'))
    (hside : side ∈ set.sides) :
    w.journal.nextId ≤ side.parent.id ∧ w'.Unkept side.parent.id := by
  unfold buildSideSet at h
  split at h
  · cases h
  obtain ⟨_, w₁, runSize, h₁⟩ := bind_ok h
  obtain ⟨-, rfl⟩ := Work.ofExcept_ok runSize
  obtain ⟨sides, w₂, hsides, h₂⟩ := bind_ok h₁
  cases h₂
  exact unkept_of_buildSidesFrom hw hsides hside

/-- The parent rules of different sides have different numbers. -/
theorem pairwise_buildSidesFrom {first count : Nat} {sides : List Side} (hw : w.Distinct)
    (h : (buildSidesFrom t order first count).run w = (.ok sides, w')) :
    sides.Pairwise fun side side' => side.parent.id < side'.parent.id := by
  induction count generalizing first w sides with
  | zero =>
    cases h
    exact .nil
  | succ count ih =>
    obtain ⟨side₀, w₁, hfirst, h₁⟩ := bind_ok h
    obtain ⟨others, w₂, hothers, h₂⟩ := bind_ok h₁
    cases h₂
    have hmoves := moves_buildSide t order first w
    rw [hfirst] at hmoves
    have hw₁ := hmoves.distinct hw
    have hlt := (unkept_of_buildSide hw hfirst).2.lt
    exact .cons (fun side hside => Nat.lt_of_lt_of_le hlt
      (unkept_of_buildSidesFrom hw₁ hothers hside).1) (ih hw₁ hothers)

theorem pairwise_buildSideSet {name : String} {base : Shared FloatRule} {set : SideSet}
    (hw : w.Distinct) (h : (buildSideSet name t base).run w = (.ok set, w')) :
    set.sides.Pairwise fun side side' => side.parent.id < side'.parent.id := by
  unfold buildSideSet at h
  split at h
  · cases h
  obtain ⟨_, w₁, runSize, h₁⟩ := bind_ok h
  obtain ⟨-, rfl⟩ := Work.ofExcept_ok runSize
  obtain ⟨sides, w₂, hsides, h₂⟩ := bind_ok h₁
  cases h₂
  exact pairwise_buildSidesFrom hw hsides

end Build

theorem SideSet.parentRule_ok {set : SideSet} {i : Nat} {rule : Shared FloatRule}
    (h : set.parentRule i = .ok rule) : ∃ side, set.sides[i]? = some side ∧ side.parent = rule := by
  unfold SideSet.parentRule SideSet.side at h
  cases hside : set.sides[i]? with
  | none => rw [hside] at h; cases h
  | some side =>
    rw [hside] at h
    exact ⟨side, rfl, Except.ok.inj h⟩

/-- Sides of one set whose parent rules have the same number have the same parent rule. -/
theorem Side.parent_eq_of_pairwise {sides : List Side} {i j : Nat} {side side' : Side}
    (h : sides.Pairwise fun side side' => side.parent.id < side'.parent.id)
    (hi : sides[i]? = some side) (hj : sides[j]? = some side')
    (hid : side.parent.id = side'.parent.id) : side.parent = side'.parent := by
  obtain ⟨hi', rfl⟩ := List.getElem?_eq_some_iff.mp hi
  obtain ⟨hj', rfl⟩ := List.getElem?_eq_some_iff.mp hj
  rw [List.pairwise_iff_getElem] at h
  rcases Nat.lt_trichotomy i j with hlt | rfl | hlt
  · exact absurd hid (Nat.ne_of_lt (h i j hi' hj' hlt))
  · rfl
  · exact absurd hid.symm (Nat.ne_of_lt (h j i hj' hi' hlt))

/-! ## Sessions -/

namespace Session

variable {s s' : Session} {target : Option RegistryId} {n : Nat} {requests : List Request}
  {origin : Origin} {rule kept : Shared FloatRule} {id : RegistryId} {kind : Kind} {order : Nat}

/-- A number was issued, but to no rule that a registry keeps. -/
structure Unkept (s : Session) (n : Nat) : Prop where
  lt : n < s.journal.nextId
  ne : ∀ {id kind order rule}, s.Holds id kind order rule → rule.id ≠ n

theorem Effect.unkept (h : s.Effect target s') (hn : s.Unkept n) : s'.Unkept n where
  lt := Nat.lt_of_lt_of_le hn.lt h.nextId_le
  ne hf := by
    rcases h.holds_new hf with hold | ⟨-, hlo, -⟩
    · exact hn.ne hold
    · exact Nat.ne_of_gt (Nat.lt_of_lt_of_le hn.lt hlo)

theorem Unkept.after (hn : s.Unkept n) (requests : List Request) : (s.after requests).Unkept n :=
  after_induction hn (fun hn h => h.unkept hn) requests

/-- A rule that a caller supplies has a new number. -/
theorem unkept_of_supplied {dim npoints : Nat} {coords : List Float}
    {weights : Option (List Float)} (hs : s.Distinct)
    (h : s.step (.arbitrary dim npoints coords weights) = (.ok (.rule rule), s')) :
    s.journal.nextId ≤ rule.id ∧ s'.Unkept rule.id := by
  have hrun := rule_map_ok h
  rw [run_arbitrary] at hrun
  split at hrun <;> cases hrun
  exact ⟨Nat.le_refl _, Nat.lt_succ_self _, fun hf => Nat.ne_of_lt (hs.id_lt hf)⟩

/-- So has a rule that was carried into an element for a new set. -/
theorem Answers.unkept_of_not_files {q : SideQuery} {set : Shared SideSet} {i : Nat}
    (h : s.Answers q set s') (hs : s.Distinct) (hnew : ¬s.FilesKey q.catalog q.key)
    (hparent : set.value.parentRule i = .ok rule) :
    s.journal.nextId ≤ rule.id ∧ s'.Unkept rule.id := by
  obtain ⟨t, -, hserve⟩ := h.serve
  obtain ⟨catalog, r, w, -, hr, hbuild, -, hregs, hjournal⟩ := serve_of_not_files hnew hserve
  obtain ⟨side, hside, rfl⟩ := SideSet.parentRule_ok hparent
  obtain ⟨hlo, hunkept⟩ := unkept_of_buildSideSet (hs.workshop hr) hbuild
    (List.mem_of_getElem? hside)
  refine ⟨hlo, by rw [hjournal]; exact Nat.lt_succ_of_lt hunkept.lt,
    fun {id kind order kept} hf => ?_⟩
  rw [holds_worked (List.getElem?_eq_some_iff.mp hr).1 hregs] at hf
  split at hf
  · exact hunkept.ne hf
  · exact Nat.ne_of_lt (Nat.lt_of_lt_of_le (hs.id_lt hf) hlo)

/-! ## Rules that no registry built -/

variable {rule' : Shared FloatRule} {request : Request} {origin' : Origin}

/-- A request brings a rule that no registry built: the caller supplies it, or it is carried into an
element for a side of a new set. -/
inductive Brings (s : Session) (request : Request) (rule : Shared FloatRule) : Prop where
  | supplied {dim npoints : Nat} {coords : List Float} {weights : Option (List Float)}
    (hrequest : request = .arbitrary dim npoints coords weights)
    (h : (s.step request).1 = .ok (.rule rule))
  | carried {q : SideQuery} {set : Shared SideSet} {i : Nat} (hq : request.sideQuery? = some q)
    (hnew : ¬s.FilesKey q.catalog q.key) (h : (s.step request).1 = .ok (.sideSet set))
    (hparent : set.value.parentRule i = .ok rule)

/-- The number of a rule that is brought is issued at the request, and not to a kept rule. -/
theorem Brings.unkept (h : s.Brings request rule) (hs : s.Distinct) :
    s.journal.nextId ≤ rule.id ∧ (s.step request).2.Unkept rule.id := by
  cases h with
  | supplied hrequest h =>
    subst hrequest
    exact unkept_of_supplied hs (Prod.ext h rfl)
  | carried hq hnew h hparent => exact (answers_of_step hq h).unkept_of_not_files hs hnew hparent

/-- One request brings each number once. -/
theorem Brings.eq_of_id (h : s.Brings request rule) (h' : s.Brings request rule')
    (hs : s.Distinct) (hid : rule.id = rule'.id) : rule = rule' := by
  cases h with
  | supplied hrequest hrule =>
    cases h' with
    | supplied _ hrule' => exact Answer.rule.inj (Except.ok.inj (hrule.symm.trans hrule'))
    | carried hq' =>
      rw [hrequest] at hq'
      cases hq'
  | carried hq hnew hset hparent =>
    cases h' with
    | supplied hrequest' =>
      rw [hrequest'] at hq
      cases hq
    | carried hq' _ hset' hparent' =>
      obtain rfl := Answer.sideSet.inj (Except.ok.inj (hset.symm.trans hset'))
      obtain ⟨t, -, hserve⟩ := (answers_of_step hq hset).serve
      obtain ⟨catalog, r, w, -, hr, hbuild, -⟩ := serve_of_not_files hnew hserve
      obtain ⟨side, hside, rfl⟩ := SideSet.parentRule_ok hparent
      obtain ⟨side', hside', rfl⟩ := SideSet.parentRule_ok hparent'
      have hpairwise := pairwise_buildSideSet (hs.workshop hr) hbuild
      exact Side.parent_eq_of_pairwise hpairwise hside hside' hid

/-! ## Runs -/

/-- A rule of a run is a rule of every longer run. -/
theorem Arises.append (h : Arises requests origin rule) (later : List Request) :
    Arises (requests ++ later) origin rule := by
  cases h with
  | built hrun hbuild hkept =>
    exact .built (by rw [hrun, List.append_assoc, List.cons_append]) hbuild hkept
  | supplied hrun h => exact .supplied (by rw [hrun, List.append_assoc, List.cons_append]) h
  | carried hrun hq h hparent =>
    exact .carried (by rw [hrun, List.append_assoc, List.cons_append]) hq h hparent

/-- A rule of a run that no registry built was brought by one of its requests. -/
theorem Arises.exists_brings (h : Arises requests origin rule) (hne : ∀ id, origin ≠ .registry id) :
    ∃ before request later, requests = before ++ request :: later ∧
      (({} : Session).after before).Brings request rule := by
  cases h with
  | built => exact absurd rfl (hne _)
  | supplied hrun h => exact ⟨_, _, _, hrun, .supplied rfl h⟩
  | @carried before later request q set i _ hrun hq h hparent =>
    -- The set that was answered may be one that an earlier request built.
    obtain ⟨id, hf⟩ := (answers_of_step hq h).files
    have hone : ∀ s : Session, (s.step request).2 = s.after [request] := fun _ => rfl
    rw [hone, ← after_append] at hf
    obtain ⟨before', request', later', hrun', q', hq', hc, hkey, hnew, hbuilt⟩ :=
      exists_buildsSet hf
    rw [← hc, ← hkey] at hnew
    exact ⟨before', request', later' ++ later, by
      rw [hrun, List.append_cons, hrun', List.append_assoc, List.cons_append],
      .carried hq' hnew hbuilt hparent⟩

/-- The number of a rule that no registry built is not that of a kept rule. -/
theorem Arises.unkept (h : Arises requests origin rule) (hne : ∀ id, origin ≠ .registry id) :
    (({} : Session).after requests).Unkept rule.id := by
  obtain ⟨before, request, later, rfl, hbrings⟩ := h.exists_brings hne
  rw [after_append]
  exact (hbrings.unkept (sound_start.after before).distinct).2.after later

/-- A rule of a run that has the number of a kept rule is the kept rule. -/
theorem Arises.eq_of_holds (h : Arises requests origin rule)
    (hf : (({} : Session).after requests).Holds id kind order kept) (hid : rule.id = kept.id) :
    rule = kept := by
  cases origin with
  | registry id' =>
    obtain ⟨kind', order', hrule⟩ := arises_registry_iff.mp h
    obtain ⟨rfl, rfl, rfl⟩ := (sound_start.after requests).distinct.key_eq hrule hf hid
    exact hrule.unique hf
  | caller | carried => exact absurd hid.symm ((h.unkept (by simp)).ne hf)

theorem nextId_le_after (s : Session) (requests : List Request) :
    s.journal.nextId ≤ (s.after requests).journal.nextId :=
  after_induction (P := fun s' => s.journal.nextId ≤ s'.journal.nextId) (Nat.le_refl _)
    (fun hle h => Nat.le_trans hle h.nextId_le) requests

/-- A later request brings the number of an earlier one only if it is that request. -/
theorem Brings.eq_of_later {before between later later' : List Request} {request' : Request}
    (h : (({} : Session).after before).Brings request rule)
    (h' : (({} : Session).after (before ++ between)).Brings request' rule')
    (hrun : request :: later = between ++ request' :: later') (hid : rule.id = rule'.id) :
    rule = rule' := by
  have hs := (sound_start.after before).distinct
  cases between with
  | nil =>
    obtain rfl := (List.cons.inj hrun).1
    rw [List.append_nil] at h'
    exact h.eq_of_id h' hs hid
  | cons request₀ between =>
    obtain rfl := (List.cons.inj hrun).1
    have hlt := (h.unkept hs).2.lt
    have hlo := (h'.unkept (sound_start.after _).distinct).1
    have hle := nextId_le_after ((({} : Session).after before).step request).2 between
    rw [after_append] at hlo
    exact absurd hid (Nat.ne_of_lt (Nat.lt_of_lt_of_le hlt (Nat.le_trans hle hlo)))

/-- Rules of a run that have the same number are the same. -/
theorem Arises.eq_of_id (h : Arises requests origin rule) (h' : Arises requests origin' rule')
    (hid : rule.id = rule'.id) : rule = rule' := by
  by_cases hreg : ∃ id, origin = .registry id
  · obtain ⟨id, rfl⟩ := hreg
    obtain ⟨kind, order, hf⟩ := arises_registry_iff.mp h
    exact (h'.eq_of_holds hf hid.symm).symm
  by_cases hreg' : ∃ id, origin' = .registry id
  · obtain ⟨id, rfl⟩ := hreg'
    obtain ⟨kind, order, hf⟩ := arises_registry_iff.mp h'
    exact h.eq_of_holds hf hid
  obtain ⟨before, request, later, hrun, hbrings⟩ := h.exists_brings (not_exists.mp hreg)
  obtain ⟨before', request', later', hrun', hbrings'⟩ := h'.exists_brings (not_exists.mp hreg')
  subst hrun
  rcases List.append_eq_append_iff.mp hrun' with ⟨between, rfl, hsplit⟩ | ⟨between, rfl, hsplit⟩
  · exact hbrings.eq_of_later hbrings' hsplit hid
  · exact (hbrings'.eq_of_later hbrings hsplit hid.symm).symm

end Session

end Cubature
