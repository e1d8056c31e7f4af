import Cubature.Proofs.Config.Text
import Cubature.Proofs.Decimal.Stored

/-!
# Saving and loading

A configuration that is saved can be loaded again exactly if it is valid (`load_of_save`).

The stored text is JSON whatever the limits are (`spells_text`), so that the reader is not looked
into again. Counts are read as they are, and of the tolerance it is enough to know that what is read
is usable if and only if the stored one is (`Decimal.reads_render`).
-/

namespace Cubature.Config

open Json (WritesPieces WritesString Writes LaidBefore Numeral WritesNumber Token)

/-! ## The stored text is JSON -/

theorem writesPieces_char {chars : List Char}
    (h : ∀ c ∈ chars, c ≠ '"' ∧ c ≠ '\\' ∧ 0x20 ≤ c.toNat) :
    WritesPieces (chars.map .char) chars := by
  induction chars with
  | nil => exact .nil
  | cons c chars ih =>
    obtain ⟨hquote, hescape, hcontrol⟩ := h c (.head _)
    exact .plain hquote hescape hcontrol (ih fun d hd => h d (.tail _ hd))

/-- A known key is written as it is. -/
theorem writesString_key {key : String} (h : key ∈ knownKeys) :
    WritesString (key.toList.map .char) ('"' :: key.toList ++ ['"']) := by
  refine ⟨key.toList, writesPieces_char ?_, rfl⟩
  have hplain : ∀ key ∈ knownKeys, key.toList.all
      (fun c => decide (c ≠ '"' ∧ c ≠ '\\' ∧ 0x20 ≤ c.toNat)) = true :=
    List.all_eq_true.mp (by decide)
  exact fun c hc => of_decide_eq_true (List.all_eq_true.mp (hplain key h) c hc)

/-- A line break and a line have the tokens of a member. -/
theorem laidBefore_line (key : String) (value rest : List Char) :
    LaidBefore rest ['"' :: key.toList ++ ['"'], [':'], value]
      ('\n' :: (line key value ++ rest)) := by
  have hvalue := @LaidBefore.cons rest [' '] value _ _ (List.all_eq_true.mp rfl) .nil
  have hcolon := @LaidBefore.cons rest [] [':'] _ _ (List.all_eq_true.mp rfl) hvalue
  have hlaid := @LaidBefore.cons rest ['\n', ' ', ' '] ('"' :: key.toList ++ ['"']) _ _
    (List.all_eq_true.mp rfl) hcolon
  simpa [line] using hlaid

/-- The number of a count. -/
def countNumeral (n : ℕ) : Numeral := ⟨false, Nat.toDigits 10 n, none, none⟩

/-- The stored text has the three members in their order. -/
theorem spells_text (c : Config) {v : Json}
    (hv : Writes v [Decimal.Layout.data.render c.newtonTolerance]) :
    SpellsMembers [(maxOrderKey, .number (countNumeral c.maxOrder)), (toleranceKey, v),
      (iterationsKey, .number (countNumeral c.maxNewtonIterations))] c.text := by
  have hcount (n : ℕ) : Writes (.number (countNumeral n)) [Nat.toDigits 10 n] :=
    .number (Json.writesNumber_toDigits n)
  have hkeys : maxOrderKey ∈ knownKeys ∧ toleranceKey ∈ knownKeys ∧ iterationsKey ∈ knownKeys := by
    simp [knownKeys]
  refine ⟨_, ?_, decodes_plainKeys _⟩
  refine ⟨_, .object (.cons (writesString_key hkeys.1) (hcount _)
    (.cons (writesString_key hkeys.2.1) hv (.last (writesString_key hkeys.2.2) (hcount _)))), [],
    by simp, ?_⟩
  have hclose : LaidBefore [] [['\x7d']] ['\n', '\x7d'] :=
    @LaidBefore.cons [] ['\n'] ['\x7d'] _ _ (List.all_eq_true.mp rfl) .nil
  have hthird := (laidBefore_line iterationsKey (Nat.toDigits 10 c.maxNewtonIterations) _).append
    hclose
  have hcomma {tokens : List Token} {text : List Char} (h : LaidBefore [] tokens text) :
      LaidBefore [] ([','] :: tokens) (',' :: text) :=
    @LaidBefore.cons [] [] [','] _ _ (List.all_eq_true.mp rfl) h
  have hsecond := (laidBefore_line toleranceKey
    (Decimal.Layout.data.render c.newtonTolerance) _).append (hcomma hthird)
  have hfirst := (laidBefore_line maxOrderKey (Nat.toDigits 10 c.maxOrder) _).append
    (hcomma hsecond)
  have hobject := @LaidBefore.cons [] [] ['\x7b'] _ _ (List.all_eq_true.mp rfl) hfirst
  have htext : c.text.toList = c.chars := String.toList_ofList
  rw [htext, chars]
  simpa using hobject

/-! ## What is loaded -/

theorem load_toUTF8 (text : String) : load (some text.toUTF8) = ofText text := by
  have hvalid : text.toUTF8.IsValidUTF8 := text.isValidUTF8
  have hdecode : String.fromUTF8? text.toUTF8 = some text := by
    rw [String.fromUTF8?, dif_pos hvalid]
    rfl
  simp only [load, hdecode]

theorem ofMembers?_stored (a v b : Json) :
    ofMembers? [(maxOrderKey, a), (toleranceKey, v), (iterationsKey, b)] =
      (count? a).bind fun maxOrder => (tolerance? v).bind fun tolerance =>
        (count? b).bind fun iterations => some ⟨maxOrder, tolerance, iterations⟩ :=
  rfl

section Stored

variable {c : Config} (hmax : c.maxOrder < Size.wordCount)
  (hiterations : c.maxNewtonIterations < Size.wordCount)

include hmax hiterations

/-- Limits are read with their counts and with what the text of their tolerance is read as. -/
theorem ofText_text_of_reads {n : Numeral} {t : Float}
    (hwrites : WritesNumber n (Decimal.Layout.data.render c.newtonTolerance))
    (hread : n.toFloat? = some t) :
    ofText c.text = ({ c with newtonTolerance := t } : Config).validate.map fun _ =>
      { c with newtonTolerance := t } := by
  have hmaxOrder : count? (.number (countNumeral c.maxOrder)) = some c.maxOrder :=
    Json.toWord?_toDigits hmax
  have hmaxIterations : count? (.number (countNumeral c.maxNewtonIterations)) =
      some c.maxNewtonIterations := Json.toWord?_toDigits hiterations
  have htolerance : tolerance? (.number n) = some t := hread
  rw [HoldsMembers.ofText_eq (.object (spells_text c (.number hwrites))), ofMembers?_stored,
    hmaxOrder, htolerance, hmaxIterations]
  rfl

/-- Limits with a finite tolerance are read with their counts and with a tolerance that is usable
exactly if theirs is. -/
theorem ofText_text (h : c.newtonTolerance.isFinite = true) :
    ∃ t, isUsable t = isUsable c.newtonTolerance ∧ ofText c.text =
      ({ c with newtonTolerance := t } : Config).validate.map fun _ =>
        { c with newtonTolerance := t } := by
  obtain ⟨n, t, hwrites, hread, husable⟩ := Decimal.reads_render h
  exact ⟨t, husable, ofText_text_of_reads hmax hiterations hwrites hread⟩

omit hmax hiterations in
/-- A tolerance that is not finite makes the stored text malformed. -/
theorem ofText_text_of_not_isFinite (h : c.newtonTolerance.isFinite = false) :
    ofText c.text = .error (.rejected (.config .malformed)) := by
  have hnull : Writes .null [Decimal.Layout.data.render c.newtonTolerance] := by
    rw [Decimal.render_of_not_isFinite h]
    exact .null
  refine HoldsMembers.ofText_malformed (.object (spells_text c hnull)) ?_
  rw [ofMembers?_stored]
  cases count? (.number (countNumeral c.maxOrder)) <;> rfl

end Stored

/-! ## Validation -/

theorem validate_of_zero_maxOrder {c : Config} (h : c.maxOrder = 0) :
    c.validate = .error (.rejected (.config .zeroMaxOrder)) := by
  rw [validate, if_pos h]

theorem validate_of_not_isUsable {c : Config} (h : c.maxOrder ≠ 0)
    (htolerance : isUsable c.newtonTolerance = false) :
    c.validate = .error (.rejected (.config (.badTolerance c.newtonTolerance))) := by
  rw [validate, if_neg h, htolerance]
  rfl

theorem validate_of_zero_iterations {c : Config} (h : c.maxOrder ≠ 0)
    (htolerance : isUsable c.newtonTolerance = true) (hiterations : c.maxNewtonIterations = 0) :
    c.validate = .error (.rejected (.config .zeroIterations)) := by
  rw [validate, if_neg h, htolerance, if_neg (by decide), if_pos hiterations]

theorem validate_eq_ok_iff {c : Config} : c.validate = .ok () ↔
    c.maxOrder ≠ 0 ∧ isUsable c.newtonTolerance = true ∧ c.maxNewtonIterations ≠ 0 := by
  by_cases hmax : c.maxOrder = 0
  · simp [validate_of_zero_maxOrder hmax, hmax]
  cases htolerance : isUsable c.newtonTolerance with
  | false => simp [validate_of_not_isUsable hmax htolerance]
  | true =>
    by_cases hiterations : c.maxNewtonIterations = 0
    · simp [validate_of_zero_iterations hmax htolerance hiterations, hiterations]
    · simp [validate, hmax, htolerance, hiterations]

/-- A configuration can always be stored where the bytes can be written, and what is stored is
loaded again exactly if the configuration is valid. Then both counts are the same, over all words.
A tolerance that is not finite is stored as what is no number, so that loading fails on the text;
any other invalid configuration is refused by the first check that it fails itself. The tolerance
that is named there is the one that was read, which is no more usable than the stored one. -/
theorem load_of_save (c : Config) (hmax : c.maxOrder < Size.wordCount)
    (hiterations : c.maxNewtonIterations < Size.wordCount) (store : ByteArray → Bool)
    (hstore : ∀ bytes, store bytes = true) :
    ∃ bytes, c.save store = .ok bytes ∧
      ((∃ c', load (some bytes) = .ok c') ↔ c.validate = .ok ()) ∧
      (∀ c', load (some bytes) = .ok c' → c'.maxOrder = c.maxOrder ∧
        c'.maxNewtonIterations = c.maxNewtonIterations) ∧
      (c.newtonTolerance.isFinite = false →
        load (some bytes) = .error (.rejected (.config .malformed))) ∧
      (c.newtonTolerance.isFinite = true →
        (c.maxOrder = 0 → load (some bytes) = .error (.rejected (.config .zeroMaxOrder))) ∧
        (c.maxOrder ≠ 0 → isUsable c.newtonTolerance = false → ∃ t, isUsable t = false ∧
          load (some bytes) = .error (.rejected (.config (.badTolerance t)))) ∧
        (c.maxOrder ≠ 0 → isUsable c.newtonTolerance = true → c.maxNewtonIterations = 0 →
          load (some bytes) = .error (.rejected (.config .zeroIterations)))) := by
  refine ⟨c.text.toUTF8, by rw [save, if_pos (hstore _)], ?_⟩
  rw [load_toUTF8]
  by_cases hfinite : c.newtonTolerance.isFinite = true
  case neg =>
    -- The tolerance is written as `null`, which is not read as a number.
    have hunbounded : c.newtonTolerance.isFinite = false := by simpa using hfinite
    have hunusable : isUsable c.newtonTolerance = false := by simp [isUsable, hunbounded]
    have hinvalid : c.validate ≠ .ok () := fun hvalid => by
      rw [(validate_eq_ok_iff.mp hvalid).2.1] at hunusable
      cases hunusable
    rw [ofText_text_of_not_isFinite hunbounded]
    exact ⟨⟨fun h => h.elim fun _ h => (by cases h), fun h => absurd h hinvalid⟩,
      fun _ h => (by cases h), fun _ => rfl, fun h => absurd h hfinite⟩
  case pos =>
    obtain ⟨t, husable, hread⟩ := ofText_text hmax hiterations hfinite
    rw [hread]
    -- The stored limits have another tolerance, which is as usable as the given one.
    generalize hstored : ({ c with newtonTolerance := t } : Config) = stored
    obtain ⟨hmaxOrder, htolerance, hcount⟩ : stored.maxOrder = c.maxOrder ∧
        stored.newtonTolerance = t ∧ stored.maxNewtonIterations = c.maxNewtonIterations := by
      subst hstored
      exact ⟨rfl, rfl, rfl⟩
    have hvalid : stored.validate = .ok () ↔ c.validate = .ok () := by
      rw [validate_eq_ok_iff, validate_eq_ok_iff, hmaxOrder, htolerance, husable, hcount]
    refine ⟨⟨fun h => h.elim fun c' h => ?_, fun h => ⟨stored, ?_⟩⟩, fun c' h => ?_,
      fun h => absurd (h.symm.trans hfinite) (by decide),
      fun _ => ⟨fun h => ?_, fun h hunusable => ⟨t, husable.trans hunusable, ?_⟩,
        fun h hgood hzero => ?_⟩⟩
    · exact hvalid.mp (validate_of_map h).1
    · rw [hvalid.mpr h]
      rfl
    · rw [(validate_of_map h).2]
      exact ⟨hmaxOrder, hcount⟩
    · rw [validate_of_zero_maxOrder (hmaxOrder.trans h)]
      rfl
    · rw [validate_of_not_isUsable (hmaxOrder ▸ h) (htolerance ▸ husable.trans hunusable),
        htolerance]
      rfl
    · rw [validate_of_zero_iterations (hmaxOrder ▸ h) (htolerance ▸ husable.trans hgood)
        (hcount.trans hzero)]
      rfl

/-- The least positive tolerance with the greatest counts is loaded again. A tolerance that is no
number hides that the counts are zero, and a negative zero is refused before a zero count. -/
theorem load_of_save_extremes :
    (∃ bytes c', save ⟨2 ^ 64 - 1, 5e-324, 2 ^ 64 - 1⟩ (fun _ => true) = .ok bytes ∧
      load (some bytes) = .ok c' ∧ c'.maxOrder = 2 ^ 64 - 1) ∧
    (∃ bytes, save ⟨0, 0.0 / 0.0, 0⟩ (fun _ => true) = .ok bytes ∧
      load (some bytes) = .error (.rejected (.config .malformed))) ∧
    ∃ bytes t, save ⟨1, -0.0, 0⟩ (fun _ => true) = .ok bytes ∧
      load (some bytes) = .error (.rejected (.config (.badTolerance t))) := by
  refine ⟨?greatest, ?nan, ?zero⟩
  case greatest =>
    obtain ⟨bytes, hsave, hloads, hcounts, -⟩ := load_of_save ⟨2 ^ 64 - 1, 5e-324, 2 ^ 64 - 1⟩
      (by decide) (by decide) (fun _ => true) fun _ => rfl
    obtain ⟨c', hload⟩ := hloads.mpr (by decide +kernel)
    exact ⟨bytes, c', hsave, hload, (hcounts c' hload).1⟩
  case nan =>
    obtain ⟨bytes, hsave, -, -, hmalformed, -⟩ := load_of_save ⟨0, 0.0 / 0.0, 0⟩
      (by decide) (by decide) (fun _ => true) fun _ => rfl
    exact ⟨bytes, hsave, hmalformed (by decide +kernel)⟩
  case zero =>
    obtain ⟨bytes, hsave, -, -, -, hfinite⟩ := load_of_save ⟨1, -0.0, 0⟩
      (by decide) (by decide) (fun _ => true) fun _ => rfl
    obtain ⟨t, -, hload⟩ := (hfinite (by decide +kernel)).2.1 (by decide) (by decide +kernel)
    exact ⟨bytes, t, hsave, hload⟩

end Cubature.Config
