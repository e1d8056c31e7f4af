import Cubature.Proofs.Session.Aliases
import Cubature.Proofs.Session.Carried

/-!
# Named lookups beside described topologies

A catalog files side sets by name and base alone, whether the name was looked up or came with a
described topology. So a lookup by a name of a reference element is answered with the set of
whatever topology was the first to be answered under that name and base.

* `Session.FoundedFor`: the query that a filed set was built for.
* `Session.Serves`: the set has exactly the sides of a topology.
* `namedSets_of_run`: over every run, whose sides a named lookup serves; they are those of the named
  element if no other topology was answered under its name before (`Session.Reserved`).
* `shadowed_of_square_run`: they are not, if one was.
-/

namespace Cubature

namespace Session

variable {s s' : Session} {c : CatalogId} {id : RegistryId} {key : SetKey} {set : Shared SideSet}
  {t : Topology Float} {request : Request} {requests : List Request} {order : Nat}
  {e : ReferenceElement} {name : String} {base : Shared FloatRule}

/-- In a run from the start, a set was built under a key of a catalog for a topology: by a query for
it, when the key was not filed. -/
def FoundedFor (requests : List Request) (c : CatalogId) (key : SetKey) (t : Topology Float)
    (set : Shared SideSet) : Prop :=
  ∃ before request later q, requests = before ++ request :: later ∧
    request.sideQuery? = some q ∧ q.topology = .ok t ∧
    (({} : Session).after before).BuildsSet request c key set

/-- The bases of all queries of a run are rules of the run. -/
def Grounded (requests : List Request) : Prop :=
  ∀ (before : List Request) (request : Request) (later : List Request) (q : SideQuery),
    requests = before ++ request :: later → request.sideQuery? = some q →
      ∃ origin, Arises before origin q.base

theorem grounded_nil : Grounded [] := by
  intro before request later q hrun
  simp at hrun

/-- A run goes on grounded with a query on a rule of the run, or with any other request. -/
theorem Grounded.concat (h : Grounded requests)
    (hrequest : ∀ q, request.sideQuery? = some q → ∃ origin, Arises requests origin q.base) :
    Grounded (requests ++ [request]) := by
  intro before request' later q hrun hq
  rcases List.eq_nil_or_concat later with rfl | ⟨later, last, rfl⟩
  · obtain ⟨rfl, hlast⟩ := List.append_inj' hrun rfl
    cases hlast
    exact hrequest q hq
  · rw [List.concat_eq_append, ← List.cons_append, ← List.append_assoc] at hrun
    exact h before request' later q (List.append_inj' hrun rfl).1 hq

/-- Under a key of a catalog, no query of a run was answered but for one topology. -/
def Reserved (requests : List Request) (c : CatalogId) (key : SetKey) (t : Topology Float) : Prop :=
  ∀ (before : List Request) (request : Request) (later : List Request) (q : SideQuery)
    (set : Shared SideSet), requests = before ++ request :: later →
      request.sideQuery? = some q → q.catalog = c → q.key = key →
        ((({} : Session).after before).step request).1 = .ok (.sideSet set) → q.topology = .ok t

/-- A set has exactly the sides of a topology: as many, with the rule that the registry keeps for
the shape of each side at an order, and with the images of its points under the interpolation of the
vertices of the side. -/
structure Serves (s : Session) (id : RegistryId) (t : Topology Float) (order : Nat)
    (set : SideSet) : Prop where
  carried : set.CarriedInto t
  kept : ∀ {i : Nat}, i < t.numSides → ∃ shape kind rule, t.sideShape? i = some shape ∧
    Kind.ofElement shape = .ok kind ∧ set.sideRule i = .ok rule ∧ s.Holds id kind order rule

/-! ## What is filed -/

theorem Covers.serves (hs : s.WellKept) (h : s.Covers id set.value t) :
    s.Serves id t set.value.base.value.order set.value := by
  obtain ⟨r, hr, hset⟩ := h
  refine ⟨hset.carriedInto (hs _ r hr), fun {i} hi => ?_⟩
  obtain ⟨side, hside, hrule, -⟩ := SideSet.exists_side (hset.numSides_eq ▸ hi)
  obtain ⟨shape, kind, hshape, hkind, hfind⟩ := (hset.side hside).rule
  exact ⟨shape, kind, side.rule, hshape, hkind, hrule, r, hr, hfind⟩

/-- A set that is filed after a run was built for a topology, and has its sides. -/
theorem exists_founded (hf : (({} : Session).after requests).Files c id key set) :
    ∃ t, FoundedFor requests c key t set ∧
      (({} : Session).after requests).Serves id t set.value.base.value.order set.value := by
  have hfiled := hf
  obtain ⟨before, request, later, rfl, hbuild⟩ := exists_buildsSet hf
  obtain ⟨q, t, id', -, hq, ht, -, -, hdraws, -, hcovers, -⟩ :=
    hbuild.covers (settled_start.after before)
  have hs := (sound_start.after (before ++ request :: later)).wellKept
  rw [after_append_cons] at hfiled hs ⊢
  obtain rfl := (hdraws.after later).unique hfiled.draws
  exact ⟨t, ⟨before, request, later, q, rfl, hq, ht, hbuild⟩,
    Covers.serves hs (hcovers.after later)⟩

/-- In a grounded run, the base of a set is the very base that it is filed under. -/
theorem Grounded.base_eq {origin : Origin} (h : Grounded requests)
    (hbase : Arises requests origin base)
    (hf : (({} : Session).after requests).Files c id (name, base.id) set) :
    set.value.base = base := by
  obtain ⟨before, request, later, rfl, hbuild⟩ := exists_buildsSet hf
  obtain ⟨q, t, -, -, hq, -, -, hkey, -, -, -, hset, -⟩ :=
    hbuild.covers (settled_start.after before)
  obtain ⟨origin', harises⟩ := h before request later q rfl hq
  rw [hset]
  exact (harises.append (request :: later)).eq_of_id hbase (Prod.mk.inj hkey).2

/-! ## Runs -/

/-- Named lookups over every run whose bases are its own rules, in which topologies may be described
under any names. A side set that is answered for a name of a reference element has exactly the sides
of the topology that it was founded for, at the order of the base. If no query was answered before
under that name and base but for the element, these are the sides of the element. -/
theorem namedSets_of_run (hgrounded : Grounded (requests ++ [.sideSet c name base]))
    (hname : name ∈ e.names)
    (hstep : (({} : Session).after requests).step (.sideSet c name base) =
      (.ok (.sideSet set), s')) :
    ∃ id, s'.Draws c id ∧
      (∃ t, FoundedFor (requests ++ [.sideSet c name base]) c (name, base.id) t set ∧
        s'.Serves id t base.value.order set.value) ∧
      (Reserved requests c (name, base.id) e.topology →
        s'.Serves id e.topology base.value.order set.value) := by
  have hq : (Request.sideSet c name base).sideQuery? = some ⟨c, name, .ok e.topology, base⟩ := by
    rw [Request.sideQuery?, topology_ofName hname]
  have hafter : ({} : Session).after (requests ++ [.sideSet c name base]) = s' := by
    rw [after_append]
    exact congrArg Prod.snd hstep
  obtain ⟨id, hfiles⟩ := (answers_of_step hq (congrArg Prod.fst hstep)).files
  have hfiles : (({} : Session).after (requests ++ [.sideSet c name base])).Files c id
      (name, base.id) set := by
    rw [after_append]
    exact hfiles
  obtain ⟨origin, hbase⟩ := hgrounded requests _ [] _ rfl hq
  have hset := hgrounded.base_eq (hbase.append [.sideSet c name base]) hfiles
  obtain ⟨t, hfounded, hserves⟩ := exists_founded hfiles
  rw [hset, hafter] at hserves
  refine ⟨id, hafter ▸ hfiles.draws, ⟨t, hfounded, hserves⟩, fun hreserved => ?_⟩
  obtain ⟨before, request, later, q, hrun, hq', ht, hbuild⟩ := hfounded
  -- The founder is the lookup itself, or a query before it.
  have htop : q.topology = .ok e.topology := by
    rcases List.eq_nil_or_concat later with rfl | ⟨later, last, rfl⟩
    · obtain ⟨rfl, hlast⟩ := List.append_inj' hrun rfl
      cases hlast
      obtain rfl := Option.some.inj (hq'.symm.trans hq)
      rfl
    · rw [List.concat_eq_append, ← List.cons_append, ← List.append_assoc] at hrun
      obtain ⟨q', hq'', hc, hkey, -, hres⟩ := hbuild
      obtain rfl := Option.some.inj (hq'.symm.trans hq'')
      exact hreserved before request later q set (List.append_inj' hrun rfl).1 hq' hc hkey hres
  obtain rfl := Except.ok.inj (htop.symm.trans ht)
  exact hserves

/-- A square without sides, described under the name of the element. -/
def sidelessSquare : Topology Float where
  name := "QUAD4"
  dim := 2
  numSides := 0
  sideShape? _ := none
  sideVertices? _ := none
  vertexCoords? _ := none

/-- A lookup by the name of the square, after a topology without sides was described under that name
for the same base: the set that is answered has no sides, and the square has four. -/
theorem shadowed_of_square_run :
    ∃ (base : Shared FloatRule) (set : Shared SideSet),
      (({} : Session).after [.quadrilateral 0 1]).Holds 0 .quadrilateral 1 base ∧
      ((({} : Session).after [.quadrilateral 0 1, .sideSetFor 0 sidelessSquare base]).step
        (.sideSet 0 "QUAD4" base)).1 = .ok (.sideSet set) ∧
      set.value.numSides = 0 ∧
      (ReferenceElement.quad4.topology (α := Float)).numSides = 4 :=
  ⟨_, _, ⟨_, rfl, rfl⟩, rfl, rfl, rfl⟩

/-- A lookup by the name of the square, after its own topology was described. -/
theorem namedSets_of_square_run :
    ∃ (base : Shared FloatRule) (set : Shared SideSet) (s' : Session),
      (({} : Session).after [.quadrilateral 0 1]).Holds 0 .quadrilateral 1 base ∧
      (({} : Session).after [.quadrilateral 0 1, .sideSetFor 0 ReferenceElement.quad4.topology
        base]).step (.sideSet 0 "QUAD4" base) = (.ok (.sideSet set), s') ∧
      s'.Serves 0 ReferenceElement.quad4.topology base.value.order set.value := by
  obtain ⟨base, set, s', hf, hstep⟩ : ∃ (base : Shared FloatRule) (set : Shared SideSet)
      (s' : Session), (({} : Session).after [.quadrilateral 0 1]).Holds 0 .quadrilateral 1 base ∧
        (({} : Session).after [.quadrilateral 0 1, .sideSetFor 0 ReferenceElement.quad4.topology
          base]).step (.sideSet 0 "QUAD4" base) = (.ok (.sideSet set), s') :=
    ⟨_, _, _, ⟨_, rfl, rfl⟩, rfl⟩
  have harises : Arises [.quadrilateral 0 1] (.registry 0) base :=
    arises_registry_iff.mpr ⟨_, _, hf⟩
  have hfirst : Grounded [.quadrilateral 0 1] := grounded_nil.concat fun q hq => nomatch hq
  have hsecond : Grounded [.quadrilateral 0 1,
      .sideSetFor 0 ReferenceElement.quad4.topology base] := by
    refine hfirst.concat fun q hq => ?_
    cases hq
    exact ⟨_, harises⟩
  have hgrounded : Grounded [.quadrilateral 0 1,
      .sideSetFor 0 ReferenceElement.quad4.topology base, .sideSet 0 "QUAD4" base] := by
    refine hsecond.concat fun q hq => ?_
    cases hq
    exact ⟨_, harises.append [.sideSetFor 0 ReferenceElement.quad4.topology base]⟩
  obtain ⟨id, hdraws, -, hserves⟩ := namedSets_of_run (e := .quad4) hgrounded (by decide) hstep
  have hstart : ({} : Session).Draws 0 0 := ⟨{ registry := 0 }, rfl, rfl⟩
  have hglobal : s'.Draws 0 0 := (effect_of_step hstep).draws
    (after_induction hstart (fun hs h => h.draws hs) _)
  obtain rfl := hdraws.unique hglobal
  refine ⟨base, set, s', hf, hstep, hserves ?_⟩
  -- The one query before describes the element.
  intro before request later q set' hrun hq _ _ _
  rcases before with _ | ⟨first, _ | ⟨second, before⟩⟩
  · cases hrun
    cases hq
  · cases hrun
    cases hq
    rfl
  · simp at hrun

end Session

end Cubature
