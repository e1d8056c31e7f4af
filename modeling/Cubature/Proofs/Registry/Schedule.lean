import Cubature.Proofs.Registry.Contents
import Cubature.Proofs.Registry.Request
import Mathlib.Data.List.Perm.Subperm

/-!
# Warming up in any order

Warming up asks for many rules, and the requests need not be made in the order of the list. All
that is assumed is that they are made in some order, each at most once, that all of them are made
if none fails, and that otherwise one of the failures is passed on (`Workshop.WarmsUp`). Making
them one after another up to the first failure is one of these ways (`Workshop.warmsUp_warmUp`).

* `Registry.answers_attempts`: whether a request is answered depends on its kind, its order and the
  limits, not on the requests before it.
* `Registry.isSome_after_attempts`: so do the keys that are added.
* `Registry.attempts_of_kept`: requests for rules that are kept change no registry.
* `Workshop.WarmsUp.ok_iff`, `Workshop.WarmsUp.isSome_iff`, `Workshop.WarmsUp.contents_eq`,
  `Workshop.WarmsUp.again`, `Workshop.WarmsUp.error`: what all ways to warm up have
  in common.
-/

namespace Cubature

namespace Registry

variable {kind kind' : Kind} {order order' : Nat} {keys : List RuleKey} {config : Config}
  {w : Workshop}

/-- The rules of all keys whose order is within the limits fit one table each. -/
def FitTables (config : Config) (keys : List RuleKey) : Prop :=
  ∀ key ∈ keys, key.2 ≤ config.maxOrder → key.1.coordCount key.2 < Size.tableLimit

theorem FitTables.of_leads {w' : Workshop} (h : FitTables w.registry.config keys)
    (hw : w.Leads w') : FitTables w'.registry.config keys := by rwa [hw.config_eq]

/-- What fits after one request, if all fitted before it. -/
theorem FitTables.tail {key : RuleKey} {rest : List RuleKey}
    (h : FitTables w.registry.config (key :: rest)) :
    FitTables ((rule key.1 key.2).run w).2.registry.config rest :=
  of_leads (fun key' hkey => h key' (.tail _ hkey)) (moves_rule key.1 key.2 w)

/-! ## One request -/

/-- A request is refused without any effect, or it is accepted and answered. -/
theorem run_rule_cases
    (hsize : order ≤ w.registry.config.maxOrder → kind.coordCount order < Size.tableLimit) :
    (∃ cause, accept w.registry.config kind order = .error cause ∧
      (rule kind order).run w = (.error cause, w)) ∨
    (accept w.registry.config kind order = .ok () ∧
      ∃ r w', (rule kind order).run w = (.ok r, w')) := by
  cases hacc : accept w.registry.config kind order with
  | error cause =>
    refine .inl ⟨cause, rfl, ?_⟩
    rw [run_rule, hacc]
  | ok =>
    obtain ⟨hk, hpos, hmax⟩ := accept_ok hacc
    exact .inr ⟨rfl, answers_rule hk hpos hmax (hsize hmax) w rfl⟩

/-- The keys after a request that need not be answered. -/
theorem isSome_after_request (hw : w.registry.WellKept)
    (hsize : order ≤ w.registry.config.maxOrder → kind.coordCount order < Size.tableLimit) :
    (((rule kind order).run w).2.registry.find? kind' order').isSome ↔
      (w.registry.find? kind' order').isSome ∨
        accept w.registry.config kind order = .ok () ∧ (kind', order') ∈ addedKeys kind order := by
  rcases run_rule_cases hsize with ⟨cause, hacc, hrun⟩ | ⟨hacc, r, w', hrun⟩
  · simp [hrun, hacc]
  · rw [hrun, isSome_after_rule hw hrun]
    simp [hacc]

/-- A request for a rule that is kept leaves the registry as it is. -/
theorem run_rule_of_kept (hacc : accept w.registry.config kind order = .ok ())
    (hkept : (w.registry.find? kind order).isSome) :
    ((rule kind order).run w).2.registry = w.registry := by
  obtain ⟨r, hr⟩ := Option.isSome_iff_exists.mp hkept
  rw [run_rule, hacc]
  simp only [run_serve, hr]
  rfl

/-! ## Requests one after another -/

/-- Requests rules one after another, also after failures, and collects how each request ended. -/
def attempts : List RuleKey → Workshop → List (Except Failure Unit) × Workshop
  | [], w => ([], w)
  | (kind, order) :: rest, w =>
    let (answer, w') := (rule kind order).run w
    let (answers, w'') := attempts rest w'
    (answer.map (fun _ => ()) :: answers, w'')

theorem attempts_cons (key : RuleKey) (rest : List RuleKey) (w : Workshop) :
    attempts (key :: rest) w =
      (((rule key.1 key.2).run w).1.map (fun _ => ()) ::
          (attempts rest ((rule key.1 key.2).run w).2).1,
        (attempts rest ((rule key.1 key.2).run w).2).2) := rfl

theorem leads_attempts (keys : List RuleKey) (w : Workshop) : w.Leads (attempts keys w).2 := by
  induction keys generalizing w with
  | nil => exact .refl
  | cons key rest ih => exact (moves_rule key.1 key.2 w).trans (ih _)

/-- Each request ends as it is accepted or refused, whatever was requested before it. -/
theorem answers_attempts (hsize : FitTables w.registry.config keys) :
    (attempts keys w).1 = keys.map fun key => accept w.registry.config key.1 key.2 := by
  induction keys generalizing w with
  | nil => rfl
  | cons key rest ih =>
    rw [attempts_cons, ih hsize.tail, (moves_rule key.1 key.2 w).config_eq, List.map_cons]
    rcases run_rule_cases (hsize key (.head _)) with ⟨cause, hacc, hrun⟩ | ⟨hacc, r, w', hrun⟩ <;>
      rw [hacc, hrun] <;> rfl

/-- The keys after requests, in whatever order they are made. -/
theorem isSome_after_attempts (hw : w.registry.WellKept)
    (hsize : FitTables w.registry.config keys) :
    ((attempts keys w).2.registry.find? kind order).isSome ↔
      (w.registry.find? kind order).isSome ∨ ∃ key ∈ keys,
        accept w.registry.config key.1 key.2 = .ok () ∧
          (kind, order) ∈ addedKeys key.1 key.2 := by
  induction keys generalizing w with
  | nil => simp [attempts]
  | cons key rest ih =>
    -- The requests of `rest` are accepted or refused as they were before this one, so that the
    -- place of a request in the list does not enter.
    have hmoves := moves_rule key.1 key.2 w
    rw [attempts_cons]
    simp only [ih (hmoves.wellKept hw) hsize.tail, hmoves.config_eq,
      isSome_after_request hw (hsize key (.head _)), or_assoc, List.mem_cons, exists_eq_or_imp]

/-- Requests for rules that are kept leave the registry as it is. -/
theorem attempts_of_kept (hkept : ∀ key ∈ keys, accept w.registry.config key.1 key.2 = .ok () ∧
      (w.registry.find? key.1 key.2).isSome) :
    (attempts keys w).2.registry = w.registry := by
  induction keys generalizing w with
  | nil => rfl
  | cons key rest ih =>
    obtain ⟨hacc, hfind⟩ := hkept key (.head _)
    have hsame := run_rule_of_kept hacc hfind
    rw [attempts_cons]
    refine (ih (w := ((rule key.1 key.2).run w).2) ?_).trans hsame
    rw [hsame]
    exact fun key' hkey => hkept key' (.tail _ hkey)

/-- Requests up to the first that fails: all are made, or those before the failure and it. -/
theorem run_rules (keys : List RuleKey) (w : Workshop) :
    ((rules keys).run w = (.ok (), (attempts keys w).2) ∧
      ∀ answer ∈ (attempts keys w).1, answer = .ok ()) ∨
    ∃ made cause, made <+: keys ∧ (rules keys).run w = (.error cause, (attempts made w).2) ∧
      .error cause ∈ (attempts made w).1 := by
  induction keys generalizing w with
  | nil => exact .inl ⟨rfl, by simp [attempts]⟩
  | cons key rest ih =>
    rw [rules, run_bind, attempts_cons]
    generalize hrun : (rule key.1 key.2).run w = out
    obtain ⟨cause | r, w'⟩ := out
    · refine .inr ⟨[key], cause, ⟨rest, rfl⟩, ?_, ?_⟩ <;> rw [attempts_cons, hrun]
      · rfl
      · exact .head _
    · rcases ih w' with ⟨hrest, hok⟩ | ⟨made, cause, ⟨left, hmade⟩, hrest, hcause⟩
      · refine .inl ⟨hrest, fun answer hanswer => ?_⟩
        rcases List.mem_cons.mp hanswer with rfl | hanswer
        · rfl
        · exact hok answer hanswer
      · refine .inr ⟨key :: made, cause, ⟨left, congrArg (key :: ·) hmade⟩, ?_, ?_⟩ <;>
          rw [attempts_cons, hrun]
        · exact hrest
        · exact .tail _ hcause

/-! ## Pairs -/

variable {kinds : List Kind} {orders : List Nat}

theorem mem_pairs : (kind, order) ∈ pairs kinds orders ↔ kind ∈ kinds ∧ order ∈ orders := by
  simp [pairs]

/-- All pairs are accepted if there are none, or no kind and no order is refused. -/
theorem accept_pairs_iff :
    (∀ key ∈ pairs kinds orders, accept config key.1 key.2 = .ok ()) ↔
      kinds = [] ∨ orders = [] ∨
        .arbitrary ∉ kinds ∧ ∀ order ∈ orders, 1 ≤ order ∧ order ≤ config.maxOrder := by
  constructor
  · intro hacc
    by_cases hkinds : kinds = []
    · exact .inl hkinds
    by_cases horders : orders = []
    · exact .inr (.inl horders)
    obtain ⟨kind, hkind⟩ := List.exists_mem_of_ne_nil kinds hkinds
    obtain ⟨order, horder⟩ := List.exists_mem_of_ne_nil orders horders
    refine .inr (.inr ⟨fun harb => ?_, fun order' horder' => ?_⟩)
    · exact (accept_ok (hacc (.arbitrary, order) (mem_pairs.mpr ⟨harb, horder⟩))).1 rfl
    · exact (accept_ok (hacc (kind, order') (mem_pairs.mpr ⟨hkind, horder'⟩))).2
  · rintro h ⟨kind, order⟩ hkey
    obtain ⟨hkind, horder⟩ := mem_pairs.mp hkey
    rcases h with rfl | rfl | ⟨harb, hin⟩
    · cases hkind
    · cases horder
    · exact accept_of_within (fun he => harb (he ▸ hkind)) (hin order horder).1 (hin order horder).2

end Registry

/-! ## Warming up -/

namespace Workshop

open Registry

variable {w w' : Workshop} {kinds : List Kind} {orders : List Nat} {outcome : Except Failure Unit}
  {kind : Kind} {order : Nat} {cause : Failure}

/-- The workshop when the requests of warming up begin. -/
def announced (w : Workshop) (kinds : List Kind) (orders : List Nat) : Workshop :=
  w.report (.warmingUp (pairs kinds orders).length)

/-- The ways in which warming up can end. The requests for the rules are made in some order, each
at most once. If all were made and answered, it is done. If some were made, one of which failed, it
fails with that failure. -/
inductive WarmsUp (w : Workshop) (kinds : List Kind) (orders : List Nat) :
    Except Failure Unit → Workshop → Prop where
  | done {made : List RuleKey} (hmade : made.Perm (pairs kinds orders))
    (hok : ∀ answer ∈ (attempts made (w.announced kinds orders)).1, answer = .ok ()) :
    WarmsUp w kinds orders (.ok ()) (attempts made (w.announced kinds orders)).2
  | failed {made : List RuleKey} {cause : Failure} (hmade : made.Subperm (pairs kinds orders))
    (hcause : .error cause ∈ (attempts made (w.announced kinds orders)).1) :
    WarmsUp w kinds orders (.error cause) (attempts made (w.announced kinds orders)).2

theorem WarmsUp.leads (h : w.WarmsUp kinds orders outcome w') : w.Leads w' := by
  cases h <;> exact (leads_report w rfl).trans (leads_attempts _ _)

/-- Making the requests in the order of the list up to the first failure is one of the ways. -/
theorem warmsUp_warmUp (w : Workshop) (kinds : List Kind) (orders : List Nat) :
    w.WarmsUp kinds orders ((warmUp kinds orders).run w).1 ((warmUp kinds orders).run w).2 := by
  have hwarm : (warmUp kinds orders).run w =
      (rules (pairs kinds orders)).run (w.announced kinds orders) := rfl
  rw [hwarm]
  rcases run_rules (pairs kinds orders) (w.announced kinds orders) with ⟨hrun, hok⟩ |
    ⟨made, cause, hmade, hrun, hcause⟩ <;> rw [hrun]
  · exact .done (.refl _) hok
  · exact .failed hmade.sublist.subperm hcause

/-- Every order of all requests is one of the ways. -/
theorem exists_warmsUp {made : List RuleKey} (hmade : made.Perm (pairs kinds orders)) :
    ∃ outcome, w.WarmsUp kinds orders outcome (attempts made (w.announced kinds orders)).2 := by
  by_cases hok : ∀ answer ∈ (attempts made (w.announced kinds orders)).1, answer = .ok ()
  · exact ⟨_, .done hmade hok⟩
  · obtain ⟨answer, hmem, hne⟩ : ∃ answer ∈ (attempts made (w.announced kinds orders)).1,
        answer ≠ .ok () := by simpa using hok
    cases answer with
    | error cause => exact ⟨_, .failed hmade.subperm hmem⟩
    | ok => exact absurd rfl hne

section Outcome

variable (hsize : FitTables w.registry.config (pairs kinds orders))

include hsize

/-- The requests that were made end as they are accepted or refused. -/
theorem answers_announced {made : List RuleKey} (hmade : made ⊆ pairs kinds orders) :
    (attempts made (w.announced kinds orders)).1 =
      made.map fun key => accept w.registry.config key.1 key.2 :=
  answers_attempts (w := w.announced kinds orders) fun key hkey => hsize key (hmade hkey)

/-- Warming up succeeds exactly if all pairs are accepted. -/
theorem WarmsUp.ok_iff (h : w.WarmsUp kinds orders outcome w') :
    outcome = .ok () ↔
      ∀ key ∈ pairs kinds orders, accept w.registry.config key.1 key.2 = .ok () := by
  cases h with
  | done hmade hok =>
    rw [answers_announced hsize hmade.subset] at hok
    refine iff_of_true rfl fun key hkey => hok _ ?_
    exact List.mem_map_of_mem (hmade.mem_iff.mpr hkey)
  | failed hmade hcause =>
    rw [answers_announced hsize hmade.subset] at hcause
    obtain ⟨key, hkey, hacc⟩ := List.mem_map.mp hcause
    refine iff_of_false nofun fun hall => ?_
    rw [hall key (hmade.subset hkey)] at hacc
    cases hacc

/-- If warming up fails, then as the request for some pair is refused. -/
theorem WarmsUp.error (h : w.WarmsUp kinds orders (.error cause) w') :
    ∃ kind ∈ kinds, ∃ order ∈ orders, accept w.registry.config kind order = .error cause := by
  cases h with
  | failed hmade hcause =>
    rw [answers_announced hsize hmade.subset] at hcause
    obtain ⟨key, hkey, hacc⟩ := List.mem_map.mp hcause
    obtain ⟨hkind, horder⟩ := mem_pairs.mp (hmade.subset hkey)
    exact ⟨_, hkind, _, horder, hacc⟩

/-- What is kept under new keys was added for one of the pairs. -/
theorem WarmsUp.isSome_cases (h : w.WarmsUp kinds orders outcome w') (hw : w.registry.WellKept)
    (hsome : (w'.registry.find? kind order).isSome) :
    (w.registry.find? kind order).isSome ∨
      ∃ kind' ∈ kinds, ∃ order' ∈ orders, (kind, order) ∈ addedKeys kind' order' := by
  obtain ⟨made, hmade, rfl⟩ : ∃ made, made ⊆ pairs kinds orders ∧
      w' = (attempts made (w.announced kinds orders)).2 := by
    cases h with
    | done hmade => exact ⟨_, hmade.subset, rfl⟩
    | failed hmade => exact ⟨_, hmade.subset, rfl⟩
  have hfit : FitTables (w.announced kinds orders).registry.config made :=
    fun key hkey => hsize key (hmade hkey)
  rcases (isSome_after_attempts (w := w.announced kinds orders) hw hfit).mp hsome with
    hold | ⟨key, hkey, -, hadded⟩
  · exact .inl hold
  · obtain ⟨hkind, horder⟩ := mem_pairs.mp (hmade hkey)
    exact .inr ⟨_, hkind, _, horder, hadded⟩

/-- If warming up succeeds, then the keys of all pairs are added. -/
theorem WarmsUp.isSome_iff (h : w.WarmsUp kinds orders (.ok ()) w') (hw : w.registry.WellKept) :
    (w'.registry.find? kind order).isSome ↔ (w.registry.find? kind order).isSome ∨
      ∃ kind' ∈ kinds, ∃ order' ∈ orders, (kind, order) ∈ addedKeys kind' order' := by
  refine ⟨h.isSome_cases hsize hw, fun hkept => ?_⟩
  have hacc := (h.ok_iff hsize).mp rfl
  cases h with
  | @done made hmade =>
    have hfit : FitTables (w.announced kinds orders).registry.config made :=
      fun key hkey => hsize key (hmade.subset hkey)
    refine (isSome_after_attempts (w := w.announced kinds orders) hw hfit).mpr ?_
    refine hkept.imp id fun ⟨kind', hkind, order', horder, hadded⟩ => ?_
    have hkey := mem_pairs.mpr ⟨hkind, horder⟩
    exact ⟨(kind', order'), hmade.mem_iff.mpr hkey, hacc _ hkey, hadded⟩

/-- Warming up once more succeeds and leaves the registry as it is. -/
theorem WarmsUp.again {w'' : Workshop} (h : w.WarmsUp kinds orders (.ok ()) w')
    (hw : w.registry.WellKept) (h' : w'.WarmsUp kinds orders outcome w'') :
    outcome = .ok () ∧ w''.registry = w'.registry := by
  have hacc := (h.ok_iff hsize).mp rfl
  rw [← h.leads.config_eq] at hacc
  obtain rfl := (h'.ok_iff (hsize.of_leads h.leads)).mpr hacc
  refine ⟨rfl, ?_⟩
  cases h' with
  | done hmade =>
    refine attempts_of_kept (w := w'.announced kinds orders) fun key hkey => ?_
    have hkey := hmade.mem_iff.mp hkey
    obtain ⟨hkind, horder⟩ := mem_pairs.mp hkey
    exact ⟨hacc key hkey, (h.isSome_iff hsize hw).mpr
      (.inr ⟨_, hkind, _, horder, mem_addedKeys.mpr (.inl rfl)⟩)⟩

end Outcome

/-- Where two ways of warming up succeed, the same rules are kept: of equal contents under equal
keys. -/
theorem WarmsUp.contents_eq {w'' : Workshop} (hw : w.registry.WellKept)
    (hcontents : w.registry.Determined)
    (hsize : FitTables w.registry.config (pairs kinds orders))
    (h : w.WarmsUp kinds orders (.ok ()) w') (h' : w.WarmsUp kinds orders (.ok ()) w'') :
    (w'.registry.find? kind order).map Shared.value =
      (w''.registry.find? kind order).map Shared.value := by
  have hsome : (w'.registry.find? kind order).isSome = (w''.registry.find? kind order).isSome := by
    rw [Bool.eq_iff_iff, h.isSome_iff hsize hw, h'.isSome_iff hsize hw]
  have hdet : w'.registry.Determined := h.leads.determined hcontents
  have hdet' : w''.registry.Determined := h'.leads.determined hcontents
  rw [hdet.find?_map_value, hdet'.find?_map_value, hsome, h.leads.config_eq, h'.leads.config_eq]

end Workshop

end Cubature
