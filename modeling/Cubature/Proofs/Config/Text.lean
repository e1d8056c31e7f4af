import Cubature.Config.Text
import Cubature.Proofs.Json.Numbers
import Cubature.Proofs.Json.Reader
import Mathlib.Data.List.Forall2

/-!
# What a configuration text depends on

`Config.ofText` depends on the members with known keys and on nothing else.

* `SpellsMembers`: the keys of an object are compared decoded. Every key of the object itself must
  have a decoding; keys and strings inside its values need none.
* `ofMembers?_congr`: only the known members count, in any order. A known key that comes twice is
  refused (`ofMembers?_of_count`), and one that is missing could as well come with its standard
  limit (`ofMembers?_of_standard`).
* `ofMembers?_eq_some_iff`: what the members describe is what is read.
* `ofJson?_array`: the items of an array are the first members.
* `ofText_of_spells`: all of it for the texts of the values, however they are laid out.
-/

namespace Cubature.Config

open Json (Spells read? read?_eq_some_iff decode? Piece naturalOf)

/-! ## Keys -/

/-- The member under its decoded key. -/
def Decodes (written : List Piece × Json) (member : String × Json) : Prop :=
  decode? written.1 = some member.1.toList ∧ written.2 = member.2

/-- The text is an object whose keys can be decoded, with the members under their decoded keys. -/
def SpellsMembers (members : List (String × Json)) (text : String) : Prop :=
  ∃ written, Spells (.object written) text ∧ List.Forall₂ Decodes written members

theorem decodeKeys?_eq_some_iff {written : List (List Piece × Json)}
    {members : List (String × Json)} :
    decodeKeys? written = some members ↔ List.Forall₂ Decodes written members := by
  induction written generalizing members with
  | nil => simp [decodeKeys?, eq_comm]
  | cons m written ih =>
    obtain ⟨key, v⟩ := m
    have hcons : decodeKeys? ((key, v) :: written) = (decode? key).bind fun chars =>
        (decodeKeys? written).map ((String.ofList chars, v) :: ·) := by
      cases h : decode? key <;> simp [decodeKeys?, h, Option.map_eq_bind]
    rw [hcons]
    constructor
    · intro h
      obtain ⟨chars, hchars, h⟩ := Option.bind_eq_some_iff.mp h
      obtain ⟨rest, hrest, rfl⟩ := Option.map_eq_some_iff.mp h
      exact .cons ⟨by rw [hchars, String.toList_ofList], rfl⟩ (ih.mp hrest)
    · rintro (_ | ⟨⟨hkey, rfl⟩, hrest⟩)
      rw [hkey, ih.mpr hrest]
      simp

theorem decode?_char (chars : List Char) : decode? (chars.map .char) = some chars := by
  induction chars with
  | nil => rfl
  | cons c chars ih => rw [List.map_cons, decode?, ih, Option.map_some]

/-- The members with keys that are written as they are. -/
def plainKeys (members : List (String × Json)) : List (List Piece × Json) :=
  members.map fun m => (m.1.toList.map .char, m.2)

theorem decodes_plainKeys (members : List (String × Json)) :
    List.Forall₂ Decodes (plainKeys members) members := by
  induction members with
  | nil => exact .nil
  | cons m members ih => exact .cons ⟨decode?_char _, rfl⟩ ih

/-! ## Limits -/

/-- The value is a number with digits only, which stand for the count. -/
def IsCount (v : Json) (n : ℕ) : Prop :=
  ∃ digits, v = .number ⟨false, digits, none, none⟩ ∧ naturalOf digits = n ∧ n < Size.wordCount

/-- The value is a number that is read as the tolerance. -/
def IsTolerance (v : Json) (t : Float) : Prop := ∃ n, v = .number n ∧ n.toFloat? = some t

theorem count?_eq_some_iff {v : Json} {n : ℕ} : count? v = some n ↔ IsCount v n := by
  cases v with
  | number => simp [count?, IsCount, Json.toWord?_eq_some_iff]
  | _ => simp [count?, IsCount]

theorem tolerance?_eq_some_iff {v : Json} {t : Float} :
    tolerance? v = some t ↔ IsTolerance v t := by
  cases v <;> simp [tolerance?, IsTolerance]

/-- What the members say of the limit with the key. It is the given one if no member has the key. -/
inductive Says {β : Type} (members : List (String × Json)) (key : String) (missing : β)
    (IsValue : Json → β → Prop) : β → Prop where
  | missing (h : key ∉ members.map Prod.fst) : Says members key missing IsValue missing
  | once {v : Json} {limit : β} (h : (key, v) ∈ members)
    (honce : (members.map Prod.fst).count key = 1) (hv : IsValue v limit) :
    Says members key missing IsValue limit

/-- The members say all limits of the configuration. -/
structure Describes (members : List (String × Json)) (c : Config) : Prop where
  maxOrder : Says members maxOrderKey standard.maxOrder IsCount c.maxOrder
  newtonTolerance :
    Says members toleranceKey standard.newtonTolerance IsTolerance c.newtonTolerance
  maxNewtonIterations :
    Says members iterationsKey standard.maxNewtonIterations IsCount c.maxNewtonIterations

/-! ## Known members -/

/-- The keys that are read, in the order of the items of an array. -/
def knownKeys : List String := [maxOrderKey, toleranceKey, iterationsKey]

/-- The members whose keys are read. -/
def known (members : List (String × Json)) : List (String × Json) :=
  members.filter fun m => knownKeys.contains m.1

/-- The value is read as the limit that stands for a missing member with the key. -/
inductive IsStandard : String → Json → Prop where
  | maxOrder {v : Json} (h : IsCount v standard.maxOrder) : IsStandard maxOrderKey v
  | tolerance {v : Json} (h : IsTolerance v standard.newtonTolerance) : IsStandard toleranceKey v
  | iterations {v : Json} (h : IsCount v standard.maxNewtonIterations) : IsStandard iterationsKey v

theorem IsStandard.mem {key : String} {v : Json} (h : IsStandard key v) : key ∈ knownKeys := by
  cases h <;> simp [knownKeys]

section Members

variable {β : Type} {members members' : List (String × Json)} {key : String} {missing : β}
  {value? : Json → Option β}

theorem member?_congr (h : (members.filter (·.1 == key)).Perm (members'.filter (·.1 == key))) :
    member? members key missing value? = member? members' key missing value? := by
  unfold member?
  generalize members.filter (·.1 == key) = found, members'.filter (·.1 == key) = found' at h
  match found, found', h with
  | [], [], _ => rfl
  | [m], found', h => rw [List.perm_singleton.mp h.symm]
  | _ :: _ :: _, _ :: _ :: _, _ => rfl
  | [], _ :: _, h | _ :: _ :: _, [], h | _ :: _ :: _, [_], h => cases h.length_eq

theorem filter_known (hkey : key ∈ knownKeys) :
    (known members).filter (·.1 == key) = members.filter (·.1 == key) := by
  rw [known, List.filter_filter]
  refine List.filter_congr fun m _ => ?_
  by_cases hm : m.1 = key
  · simp [hm, hkey]
  · simp [hm]

theorem member?_known (h : (known members).Perm (known members')) (hkey : key ∈ knownKeys) :
    member? members key missing value? = member? members' key missing value? := by
  refine member?_congr ?_
  rw [← filter_known hkey, ← @filter_known members' _ hkey]
  exact h.filter _

theorem filter_eq_nil_of_notMem (h : key ∉ members.map Prod.fst) :
    members.filter (·.1 == key) = [] := by
  refine List.filter_eq_nil_iff.mpr fun m hm heq => h ?_
  exact List.mem_map.mpr ⟨m, hm, by simpa using heq⟩

theorem member?_of_notMem (h : key ∉ members.map Prod.fst) :
    member? members key missing value? = some missing := by
  rw [member?, filter_eq_nil_of_notMem h]

theorem member?_cons_of_notMem {v : Json} (h : key ∉ members.map Prod.fst) :
    member? ((key, v) :: members) key missing value? = value? v := by
  rw [member?, List.filter_cons_of_pos (by simp), filter_eq_nil_of_notMem h]

theorem member?_cons_of_ne {v : Json} {other : String} (h : other ≠ key) :
    member? ((other, v) :: members) key missing value? = member? members key missing value? := by
  rw [member?, List.filter_cons_of_neg (by simpa using h)]
  rfl

theorem member?_of_count (h : 2 ≤ (members.map Prod.fst).count key) :
    member? members key missing value? = none := by
  have hlength : 2 ≤ (members.filter (·.1 == key)).length := by
    rwa [List.count, List.countP_map, List.countP_eq_length_filter] at h
  unfold member?
  generalize members.filter (·.1 == key) = found at hlength
  match found, hlength with
  | _ :: _ :: _, _ => rfl

theorem member?_of_once {v : Json} (h : (key, v) ∈ members)
    (honce : (members.map Prod.fst).count key = 1) :
    member? members key missing value? = value? v := by
  have hlength : (members.filter (·.1 == key)).length = 1 := by
    rwa [List.count, List.countP_map, List.countP_eq_length_filter] at honce
  have hmem : (key, v) ∈ members.filter (·.1 == key) := List.mem_filter.mpr ⟨h, by simp⟩
  obtain ⟨m, hm⟩ := List.length_eq_one_iff.mp hlength
  rw [hm, List.mem_singleton] at hmem
  rw [member?, hm, ← hmem]

/-- A limit is read as what the members say of it. -/
theorem member?_eq_some_iff {IsValue : Json → β → Prop} {limit : β}
    (hvalue : ∀ {v limit}, value? v = some limit ↔ IsValue v limit) :
    member? members key missing value? = some limit ↔
      Says members key missing IsValue limit := by
  constructor
  · intro h
    by_cases hmem : key ∈ members.map Prod.fst
    case neg =>
      obtain rfl := Option.some.inj ((member?_of_notMem hmem).symm.trans h)
      exact .missing hmem
    case pos =>
      obtain ⟨m, hm, rfl⟩ := List.mem_map.mp hmem
      have honce : (members.map Prod.fst).count m.1 = 1 := by
        refine le_antisymm (not_lt.mp fun htwice => ?_) (List.count_pos_iff.mpr hmem)
        rw [member?_of_count htwice] at h
        cases h
      rw [member?_of_once hm honce] at h
      exact .once hm honce (hvalue.mp h)
  · rintro (hmem | ⟨h, honce, hv⟩)
    · exact member?_of_notMem hmem
    · rw [member?_of_once h honce, hvalue.mpr hv]

end Members

/-- What the members describe is what is read. -/
theorem ofMembers?_eq_some_iff {members : List (String × Json)} {c : Config} :
    ofMembers? members = some c ↔ Describes members c := by
  simp only [ofMembers?, Option.bind_eq_bind, Option.bind_eq_some_iff, Option.some.injEq,
    member?_eq_some_iff count?_eq_some_iff, member?_eq_some_iff tolerance?_eq_some_iff]
  constructor
  · rintro ⟨_, hmax, _, htolerance, _, hiterations, rfl⟩
    exact ⟨hmax, htolerance, hiterations⟩
  · rintro ⟨hmax, htolerance, hiterations⟩
    exact ⟨_, hmax, _, htolerance, _, hiterations, rfl⟩

/-- Only the known members of an object count, in any order. -/
theorem ofMembers?_congr {members members' : List (String × Json)}
    (h : (known members).Perm (known members')) : ofMembers? members = ofMembers? members' := by
  simp only [ofMembers?, member?_known h (by simp [knownKeys] : maxOrderKey ∈ knownKeys),
    member?_known h (by simp [knownKeys] : toleranceKey ∈ knownKeys),
    member?_known h (by simp [knownKeys] : iterationsKey ∈ knownKeys)]

/-- A known key that comes twice is refused. -/
theorem ofMembers?_of_count {members : List (String × Json)} {key : String}
    (hkey : key ∈ knownKeys) (h : 2 ≤ (members.map Prod.fst).count key) :
    ofMembers? members = none := by
  simp only [knownKeys, List.mem_cons, List.not_mem_nil, or_false] at hkey
  rcases hkey with rfl | rfl | rfl <;>
    simp only [ofMembers?, member?_of_count h, Option.bind_eq_bind, Option.bind_none,
      Option.bind_fun_none]

/-- A missing limit could as well be written. -/
theorem ofMembers?_of_standard {members : List (String × Json)} {key : String} {v : Json}
    (hv : IsStandard key v) (h : key ∉ members.map Prod.fst) :
    ofMembers? ((key, v) :: members) = ofMembers? members := by
  have hne : maxOrderKey ≠ toleranceKey ∧ maxOrderKey ≠ iterationsKey ∧
      toleranceKey ≠ iterationsKey := by decide
  cases hv with
  | maxOrder hv =>
    simp only [ofMembers?, member?_cons_of_notMem h, member?_of_notMem h, count?_eq_some_iff.mpr hv,
      member?_cons_of_ne hne.1, member?_cons_of_ne hne.2.1]
  | tolerance hv =>
    simp only [ofMembers?, member?_cons_of_notMem h, member?_of_notMem h,
      tolerance?_eq_some_iff.mpr hv, member?_cons_of_ne hne.1.symm, member?_cons_of_ne hne.2.2]
  | iterations hv =>
    simp only [ofMembers?, member?_cons_of_notMem h, member?_of_notMem h, count?_eq_some_iff.mpr hv,
      member?_cons_of_ne hne.2.1.symm, member?_cons_of_ne hne.2.2.symm]

/-- The items of an array are the first members. -/
theorem ofJson?_array {items : List Json} (h : items.length ≤ 3) :
    ofJson? (.array items) = ofMembers? (knownKeys.zip items) := by
  match items, h with
  | [], _ => rfl
  | [a], _ => rfl
  | [a, b], _ => rfl
  | [a, b, c], _ => rfl

/-! ## Texts -/

/-- The text of the limit that stands for a missing member with the key. -/
inductive StandardText : String → String → Prop where
  | maxOrder : StandardText maxOrderKey "64"
  | tolerance : StandardText toleranceKey "1e-15"
  | iterations : StandardText iterationsKey "100"

theorem StandardText.isStandard {key text : String} {v : Json} (h : StandardText key text)
    (hv : Spells v text) : IsStandard key v := by
  have hread := read?_eq_some_iff.mpr hv
  cases h with
  | maxOrder =>
    have hnumber : read? "64".toList = some (.number ⟨false, ['6', '4'], none, none⟩) := rfl
    cases hread.symm.trans hnumber
    exact .maxOrder ⟨_, rfl, by decide, by decide⟩
  | tolerance =>
    have hnumber : read? "1e-15".toList = some (.number ⟨false, ['1'], none, some (-15)⟩) := rfl
    cases hread.symm.trans hnumber
    exact .tolerance ⟨_, rfl, by decide +kernel⟩
  | iterations =>
    have hnumber : read? "100".toList = some (.number ⟨false, ['1', '0', '0'], none, none⟩) := rfl
    cases hread.symm.trans hnumber
    exact .iterations ⟨_, rfl, by decide, by decide⟩

theorem ofText_eq {text : String} {v : Json} (h : Spells v text) :
    ofText text = match ofJson? v with
      | none => .error (.rejected (.config .malformed))
      | some c => c.validate.map fun _ => c := by
  have hread : (read? text.toList).bind ofJson? = ofJson? v := by
    rw [read?_eq_some_iff.mpr h, Option.bind_some]
  unfold ofText
  exact hread ▸ rfl

/-- The text holds the members: as an object, or as an array that gives the first of the known
members in their order. -/
inductive HoldsMembers : List (String × Json) → String → Prop where
  | object {members : List (String × Json)} {text : String} (h : SpellsMembers members text) :
    HoldsMembers members text
  | array {items : List Json} {text : String} (h : Spells (.array items) text)
    (hlength : items.length ≤ 3) : HoldsMembers (knownKeys.zip items) text

section HoldsMembers

variable {members members' : List (String × Json)} {text text' : String}

theorem HoldsMembers.ofText_eq (h : HoldsMembers members text) :
    ofText text = match ofMembers? members with
      | none => .error (.rejected (.config .malformed))
      | some c => c.validate.map fun _ => c := by
  cases h with
  | object h =>
    obtain ⟨written, hspells, hkeys⟩ := h
    rw [Config.ofText_eq hspells, ofJson?, decodeKeys?_eq_some_iff.mpr hkeys, Option.bind_some]
  | array h hlength => rw [Config.ofText_eq h, ofJson?_array hlength]

theorem HoldsMembers.ofText_congr (h : HoldsMembers members text)
    (h' : HoldsMembers members' text') (heq : ofMembers? members = ofMembers? members') :
    ofText text = ofText text' := by
  rw [h.ofText_eq, h'.ofText_eq, heq]

theorem HoldsMembers.ofText_malformed (h : HoldsMembers members text)
    (hnone : ofMembers? members = none) :
    ofText text = .error (.rejected (.config .malformed)) := by
  rw [h.ofText_eq, hnone]

/-- The limits that the members describe are the answer if they are valid. -/
theorem HoldsMembers.ofText_of_describes {c : Config} (h : HoldsMembers members text)
    (hc : Describes members c) : ofText text = c.validate.map fun _ => c := by
  rw [h.ofText_eq, ofMembers?_eq_some_iff.mpr hc]

theorem HoldsMembers.ofText_of_not_describes (h : HoldsMembers members text)
    (hnone : ∀ c, ¬Describes members c) :
    ofText text = .error (.rejected (.config .malformed)) := by
  refine h.ofText_malformed (Option.eq_none_iff_forall_ne_some.mpr fun c hc => ?_)
  exact hnone c (ofMembers?_eq_some_iff.mp hc)

end HoldsMembers

/-- An array with more items than there are limits is malformed. -/
theorem ofText_of_long {items : List Json} {text : String} (h : Spells (.array items) text)
    (hlength : 3 < items.length) : ofText text = .error (.rejected (.config .malformed)) := by
  rw [ofText_eq h, ofJson?, if_pos hlength]

/-- A text that holds no members is malformed. -/
theorem ofText_of_not_holdsMembers {text : String} (h : ∀ members, ¬HoldsMembers members text) :
    ofText text = .error (.rejected (.config .malformed)) := by
  by_cases hspells : ∃ v, Spells v text
  case neg =>
    have hnone : read? text.toList = none :=
      Option.eq_none_iff_forall_ne_some.mpr fun v hv => hspells ⟨v, read?_eq_some_iff.mp hv⟩
    rw [ofText, hnone, Option.bind_none]
  case pos =>
    obtain ⟨v, hv⟩ := hspells
    cases v with
    | array items => exact ofText_of_long hv (not_le.mp fun hlength => h _ (.array hv hlength))
    | object written =>
      cases hkeys : decodeKeys? written with
      | none => rw [ofText_eq hv, ofJson?, hkeys, Option.bind_none]
      | some members =>
        exact absurd (.object ⟨written, hv, decodeKeys?_eq_some_iff.mp hkeys⟩) (h members)
    | null | bool | number | string =>
      rw [ofText_eq hv]
      rfl

theorem validate_of_map {c c' : Config} (h : (c.validate.map fun _ => c) = .ok c') :
    c.validate = .ok () ∧ c' = c := by
  cases hvalid : c.validate with
  | error failure =>
    rw [hvalid] at h
    cases h
  | ok =>
    rw [hvalid] at h
    cases h
    exact ⟨rfl, rfl⟩

theorem validate_of_ofText {text : String} {c : Config} (h : ofText text = .ok c) :
    c.validate = .ok () := by
  unfold ofText at h
  split at h
  · cases h
  · obtain ⟨hvalid, rfl⟩ := validate_of_map h
    exact hvalid

/-- What a configuration text holds depends on its known members only: not on their order, not on
the other members and their values, and not on the layout. A known key that comes twice makes the
text malformed, and a known key that is missing could as well come with its standard limit, written
as usual or in any other way. An array is read as the object with its items as the first members;
one with more than three is malformed.

The limits that the members describe are the answer if they are valid, and otherwise the answer is
what is wrong with them. Members that describe no limits make the text malformed, as does a text
that holds no members. The limits of every text that is accepted are valid. -/
theorem ofText_of_spells :
    (∀ members members' text text', SpellsMembers members text →
      SpellsMembers members' text' → (known members).Perm (known members') →
      ofText text = ofText text') ∧
    (∀ members text key, SpellsMembers members text → key ∈ knownKeys →
      2 ≤ (members.map Prod.fst).count key →
      ofText text = .error (.rejected (.config .malformed))) ∧
    (∀ members members' text text' key v, SpellsMembers members text →
      SpellsMembers members' text' → IsStandard key v → key ∉ members.map Prod.fst →
      (known members').Perm ((key, v) :: known members) → ofText text = ofText text') ∧
    (∀ key written v, StandardText key written → Spells v written → IsStandard key v) ∧
    (∀ items members text text', Spells (.array items) text → SpellsMembers members text' →
      items.length ≤ 3 → (known members).Perm (knownKeys.zip items) →
      ofText text = ofText text') ∧
    (∀ items text, Spells (.array items) text → 3 < items.length →
      ofText text = .error (.rejected (.config .malformed))) ∧
    (∀ members text c, HoldsMembers members text → Describes members c →
      (c.validate = .ok () → ofText text = .ok c) ∧
      ∀ failure, c.validate = .error failure → ofText text = .error failure) ∧
    (∀ members text, HoldsMembers members text → (∀ c, ¬Describes members c) →
      ofText text = .error (.rejected (.config .malformed))) ∧
    (∀ text, (∀ members, ¬HoldsMembers members text) →
      ofText text = .error (.rejected (.config .malformed))) ∧
    (∀ text c, ofText text = .ok c → c.validate = .ok ()) := by
  refine ⟨fun members members' text text' h h' hperm => ?object,
    fun members text key h hkey hcount => ?twice,
    fun members members' text text' key v h h' hv hkey hperm => ?missing,
    fun _ _ _ h hv => h.isStandard hv,
    fun items members text text' h h' hlength hperm => ?array,
    fun _ _ => ofText_of_long,
    fun members text c h hc => ⟨fun hvalid => ?valid, fun failure hinvalid => ?invalid⟩,
    fun _ _ => HoldsMembers.ofText_of_not_describes,
    fun _ => ofText_of_not_holdsMembers, fun _ _ => validate_of_ofText⟩
  case object =>
    exact (HoldsMembers.object h).ofText_congr (.object h') (ofMembers?_congr hperm)
  case twice => exact (HoldsMembers.object h).ofText_malformed (ofMembers?_of_count hkey hcount)
  case missing =>
    refine (HoldsMembers.object h).ofText_congr (.object h') ?_
    -- The member with the standard limit can stand first, where it changes nothing.
    have hperm' : (known members').Perm (known ((key, v) :: members)) := by
      rwa [known, known, List.filter_cons_of_pos (by simpa using hv.mem)]
    rw [ofMembers?_congr hperm', ofMembers?_of_standard hv hkey]
  case array =>
    have hzip : known (knownKeys.zip items) = knownKeys.zip items := by
      refine List.filter_eq_self.mpr fun m hm => ?_
      simpa using (List.of_mem_zip hm).1
    exact (HoldsMembers.array h hlength).ofText_congr (.object h')
      (ofMembers?_congr (by rw [hzip]; exact hperm.symm))
  case valid => rw [h.ofText_of_describes hc, hvalid]; rfl
  case invalid => rw [h.ofText_of_describes hc, hinvalid]; rfl

/-- What is read as an object with plain keys spells its members. -/
theorem spellsMembers_of_plainKeys {members : List (String × Json)} {text : String}
    (h : read? text.toList = some (.object (plainKeys members))) : SpellsMembers members text :=
  ⟨_, read?_eq_some_iff.mp h, decodes_plainKeys members⟩

/-- Two members among others, out of order, with a key that has an escape, are read as they are
alone and as the two items of an array; each of the other cases has a short text as well. A skipped
value may have a key that cannot be decoded, while the object itself may not. -/
theorem ofText_of_short_texts :
    ofText "\x7b\"max_order\":8,\"newton_tolerance\":1e-9\x7d" = .ok ⟨8, 1e-9, 100⟩ ∧
    ofText "\x7b\"max_order\":8,\"newton_tolerance\":1e-9\x7d" =
      ofText
        " \x7b\"a\":[\x7b\"b\":2e999\x7d],\n\"newton_tolerance\" : 1e-9,\"max_\\u006frder\":8\x7d" ∧
    ofText "\x7b\"max_order\":8,\"max_order\":8\x7d" = .error (.rejected (.config .malformed)) ∧
    ofText "\x7b\"a\":[]\x7d" = ofText "\x7b\"max_newton_iterations\":100\x7d" ∧
    ofText "[8,1e-9]" = ofText "\x7b\"max_order\":8,\"newton_tolerance\":1e-9\x7d" ∧
    ofText "[8,1,1,1]" = .error (.rejected (.config .malformed)) ∧
    ofText "[0]" = .error (.rejected (.config .zeroMaxOrder)) ∧
    ofText "\x7b\"x\":\x7b\"\\udead\":1\x7d\x7d" = .ok standard ∧
    ofText "\x7b\"\\udead\":1\x7d" = .error (.rejected (.config .malformed)) ∧
    ofText "\x7b,\x7d" = .error (.rejected (.config .malformed)) ∧
    Config.validate ⟨8, 1e-9, 100⟩ = .ok () := by
  obtain ⟨hobject, htwice, hmissing, hstandard, harray, hlong, hdescribed, hundescribed, hnone,
    hvalid⟩ := ofText_of_spells
  -- A longer text is made a list of characters first: `rfl` alone would go through its bytes.
  have height : SpellsMembers [("max_order", .number ⟨false, ['8'], none, none⟩),
      ("newton_tolerance", .number ⟨false, ['1'], none, some (-9)⟩)]
      "\x7b\"max_order\":8,\"newton_tolerance\":1e-9\x7d" :=
    spellsMembers_of_plainKeys (by simp only [String.reduceToList]; rfl)
  have hvalues : Describes [("max_order", .number ⟨false, ['8'], none, none⟩),
      ("newton_tolerance", .number ⟨false, ['1'], none, some (-9)⟩)] ⟨8, 1e-9, 100⟩ :=
    ⟨.once (.head _) (by decide) ⟨_, rfl, by decide, by decide⟩,
      .once (.tail _ (.head _)) (by decide) ⟨_, rfl, by decide +kernel⟩, .missing (by decide)⟩
  refine ⟨(hdescribed _ _ _ (.object height) hvalues).1 (by decide +kernel),
    hobject _ [("a", .array [.object [([.char 'b'], .number ⟨false, ['2'], none, some 999⟩)]]),
      ("newton_tolerance", .number ⟨false, ['1'], none, some (-9)⟩),
      ("max_order", .number ⟨false, ['8'], none, none⟩)] _ _ height ?escaped (.swap _ _ _),
    htwice [("max_order", .number ⟨false, ['8'], none, none⟩),
      ("max_order", .number ⟨false, ['8'], none, none⟩)] _ "max_order"
      (spellsMembers_of_plainKeys (by simp only [String.reduceToList]; rfl)) (by decide)
      (by decide),
    hmissing [("a", .array [])]
      [("max_newton_iterations", .number ⟨false, ['1', '0', '0'], none, none⟩)] _ _ _ _
      (spellsMembers_of_plainKeys (by simp only [String.reduceToList]; rfl))
      (spellsMembers_of_plainKeys (by simp only [String.reduceToList]; rfl))
      (hstandard _ _ _ .iterations (read?_eq_some_iff.mp rfl)) (by decide) (.refl _),
    harray [.number ⟨false, ['8'], none, none⟩, .number ⟨false, ['1'], none, some (-9)⟩] _ _ _
      (read?_eq_some_iff.mp (by simp only [String.reduceToList]; rfl)) height (by decide) (.refl _),
    hlong [.number ⟨false, ['8'], none, none⟩, .number ⟨false, ['1'], none, none⟩,
      .number ⟨false, ['1'], none, none⟩, .number ⟨false, ['1'], none, none⟩] _
      (read?_eq_some_iff.mp (by simp only [String.reduceToList]; rfl)) (by decide),
    ?zero, ?nested, hnone _ fun members h => ?key, hnone _ fun members h => ?comma,
    hvalid "\x7b\"max_order\":8,\"newton_tolerance\":1e-9\x7d" _ (by decide +kernel)⟩
  case escaped =>
    refine ⟨[([.char 'a'],
        .array [.object [([.char 'b'], .number ⟨false, ['2'], none, some 999⟩)]]),
      ("newton_tolerance".toList.map .char, .number ⟨false, ['1'], none, some (-9)⟩),
      ("max_".toList.map .char ++ .unit 0x6f :: "rder".toList.map .char,
        .number ⟨false, ['8'], none, none⟩)],
      read?_eq_some_iff.mp (by simp only [String.reduceToList]; rfl), ?_⟩
    exact decodeKeys?_eq_some_iff.mp rfl
  case zero =>
    have hzero : Describes (knownKeys.zip [.number ⟨false, ['0'], none, none⟩]) ⟨0, 1e-15, 100⟩ :=
      ⟨.once (.head _) (by decide) ⟨_, rfl, by decide, by decide⟩, .missing (by decide),
        .missing (by decide)⟩
    exact (hdescribed _ _ _ (.array (read?_eq_some_iff.mp rfl) (by decide)) hzero).2 _ rfl
  case nested =>
    have hdefault : Describes
        [("x", .object [([.unit 0xdead], .number ⟨false, ['1'], none, none⟩)])] standard :=
      ⟨.missing (by decide), .missing (by decide), .missing (by decide)⟩
    have hspells : SpellsMembers
        [("x", .object [([.unit 0xdead], .number ⟨false, ['1'], none, none⟩)])]
        "\x7b\"x\":\x7b\"\\udead\":1\x7d\x7d" :=
      spellsMembers_of_plainKeys (by simp only [String.reduceToList]; rfl)
    exact (hdescribed _ _ _ (.object hspells) hdefault).1 (by decide +kernel)
  case key =>
    have hread : read? "\x7b\"\\udead\":1\x7d".toList =
        some (.object [([.unit 0xdead], .number ⟨false, ['1'], none, none⟩)]) := by
      simp only [String.reduceToList]
      rfl
    obtain ⟨_, hspells, hkeys⟩ | ⟨hspells, -⟩ := h
    · cases hread.symm.trans (read?_eq_some_iff.mpr hspells)
      cases decodeKeys?_eq_some_iff.mpr hkeys
    · cases hread.symm.trans (read?_eq_some_iff.mpr hspells)
  case comma =>
    have hread : read? "\x7b,\x7d".toList = none := rfl
    obtain ⟨_, hspells, -⟩ | ⟨hspells, -⟩ := h <;>
      cases hread.symm.trans (read?_eq_some_iff.mpr hspells)

end Cubature.Config
