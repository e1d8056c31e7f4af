import Cubature.Config.Basic
import Cubature.Proofs.Decimal.Layout
import Cubature.Proofs.Decimal.Reread
import Mathlib.Algebra.Order.Field.Power

/-!
# Doubles in stored files

What is written for a double is read as a double that is usable as a tolerance exactly if the
written one is (`reads_render`).

A positive double is not always read as itself, since the reader rounds more than once. But it is
read as a positive double at most seven half units away (`Holds.reads_render`): between the least
double and the two greatest ones the error is too small to reach either end, and at the ends the
texts are known. It is read as itself if the digits and the power of ten are doubles themselves.
-/

namespace Cubature.Decimal

open Float.Model Float.Model.UnpackedFloat
open Json (naturalOf WritesNumber Numeral)

/-! ## Usable numbers -/

/-- A tolerance is usable if it is a positive double. -/
theorem isUsable_eq (x : Float) : Config.isUsable x = match x.toModel.unpack with
    | .finite .positive .. => true
    | _ => false := by
  have hlt : decide ((0.0 : Float) < x) = UnpackedFloat.lt (.zero .positive) x.toModel.unpack := by
    rw [← unpack_zero, Bool.eq_iff_iff, decide_eq_true_iff]
    show decide ((0.0 : Float).toModel < x.toModel) = true ↔ _
    rw [decide_eq_true_iff]
    rfl
  rw [Config.isUsable, hlt]
  show (UnpackedFloat.lt (.zero .positive) x.toModel.unpack && x.toModel.unpack.isFinite) = _
  cases x.toModel.unpack with
  | infinity sign => cases sign <;> rfl
  | notANumber => rfl
  | zero sign => cases sign <;> rfl
  | finite sign m e hm => cases sign <;> rfl

theorem Holds.isUsable {x : Float} {v : ℚ} (h : Holds x v) : Config.isUsable x = true := by
  obtain ⟨m, e, hm, hunpack, -⟩ := h
  rw [isUsable_eq, hunpack]

theorem Holds.not_isUsable_neg {x : Float} {v : ℚ} (h : Holds x v) :
    Config.isUsable (-x) = false := by
  obtain ⟨m, e, hm, hunpack, hdouble, -⟩ := h
  have hneg : (-x).toModel.unpack = .finite .negative m e hm := by
    show (Float.Model.pack x.toModel.unpack.neg).unpack = _
    rw [hunpack]
    exact unpack_pack .negative hm hdouble
  rw [isUsable_eq, hneg]

/-! ## The ends of the range -/

theorem shortest_least : shortest .toEven 1 (-1074) = ⟨['5'], -323⟩ := by decide +kernel

theorem least_le : (2 : ℚ) ^ (-1074 : ℤ) ≤ naturalOf ['5'] * 10 ^ (-323 - 1 : ℤ) := by
  have hle : 10 ^ 324 ≤ 5 * 2 ^ 1074 := by decide +kernel
  have hle' : (10 : ℚ) ^ (324 : ℤ) ≤ 5 * 2 ^ (1074 : ℤ) := by exact_mod_cast hle
  rw [show naturalOf ['5'] = 5 from rfl, show (-323 - 1 : ℤ) = -324 from rfl, zpow_neg, zpow_neg,
    ← div_eq_mul_inv, Nat.cast_ofNat, inv_le_comm₀ (two_zpow_pos _) (by positivity), inv_div,
    div_le_iff₀ (by norm_num), mul_comm]
  exact hle'

theorem shortest_greatest : shortest .toEven (2 ^ 53 - 1) 971 = ⟨"17976931348623157".toList, 309⟩ ∧
    shortest .toEven (2 ^ 53 - 2) 971 = ⟨"17976931348623155".toList, 309⟩ := by
  decide +kernel

theorem holds_of_scale {D : ℕ} {E : ℤ} {m : ℕ} {q : ℤ} {f : Float} (hscale : scale D E = some f)
    (hsign : isNegative f = false) (h : magnitude f = .finite m q) :
    ∃ f, scale D E = some f ∧ Holds f (m * 2 ^ q) :=
  ⟨f, hscale, holds_of_magnitude hsign h⟩

/-- What is written for the two greatest doubles is read as the greatest one, both times. -/
theorem holds_greatest :
    (∃ f, scale 17976931348623157 292 = some f ∧ Holds f ((2 ^ 53 - 1 : ℕ) * 2 ^ (971 : ℤ))) ∧
    ∃ f, scale 17976931348623155 292 = some f ∧ Holds f ((2 ^ 53 - 1 : ℕ) * 2 ^ (971 : ℤ)) := by
  refine ⟨@holds_of_scale _ _ (2 ^ 53 - 1) 971 (17976931348623157 * powerOfTen 292) ?_ ?_ ?_,
    @holds_of_scale _ _ (2 ^ 53 - 1) 971 (17976931348623155 * powerOfTen 292) ?_ ?_ ?_⟩ <;>
    decide +kernel

/-! ## Texts of doubles -/

/-- The value does not depend on zeros at the end. -/
theorem mul_pow_zeros (D zeros : ℕ) (e : ℤ) :
    ((D * 10 ^ zeros : ℕ) : ℚ) * 10 ^ (e - zeros) = D * 10 ^ e := by
  rw [zpow_sub₀ (by norm_num), zpow_natCast]
  push_cast
  rw [mul_assoc, mul_div_cancel₀ _ (by positivity : (10 : ℚ) ^ zeros ≠ 0)]

/-- A decimal near a double is well within the range, unless the double is at one of its ends. -/
theorem shortest_range {m : ℕ} {q : ℤ} (hm : 0 < m) (hdouble : IsDouble m q) {x : ℚ}
    (hleast : m = 1 → (2 : ℚ) ^ (-1074 : ℤ) ≤ x) (hgreatest : q = 971 → m < 2 ^ 53 - 2)
    (hlow : ((m : ℚ) - 1 / 2) * 2 ^ q ≤ x) (hhigh : x ≤ (m + 1 / 2) * 2 ^ q) :
    (2 : ℚ) ^ (-1074 : ℤ) ≤ x ∧ x ≤ (2 ^ 53 - 5 / 2) * 2 ^ (971 : ℤ) := by
  have hpos := two_zpow_pos q
  constructor
  · rcases Nat.lt_or_eq_of_le (Nat.succ_le_of_lt hm) with htwo | hone
    · have hbound : (2 : ℚ) ≤ m := by exact_mod_cast htwo
      have hunit : (2 : ℚ) ^ (-1074 : ℤ) ≤ 2 ^ q := zpow_le_zpow_right₀ one_le_two hdouble.least
      generalize (2 : ℚ) ^ (-1074 : ℤ) = least at hunit ⊢
      nlinarith
    · exact hleast hone.symm
  · have hfull : 0 < (2 : ℚ) ^ (971 : ℤ) := two_zpow_pos 971
    rcases Int.lt_or_eq_of_le hdouble.greatest with hless | rfl
    · have hbound : (m : ℚ) + 1 ≤ 2 ^ 53 := by exact_mod_cast hdouble.lt
      have hunit : (2 : ℚ) ^ q ≤ 2 ^ (971 - 1 : ℤ) := zpow_le_zpow_right₀ one_le_two (by omega)
      rw [zpow_sub_one₀ two_ne_zero] at hunit
      generalize (2 : ℚ) ^ (971 : ℤ) = unit at hfull hunit ⊢
      nlinarith
    · have hbound : (m : ℚ) + 3 ≤ 2 ^ 53 := by
        have : m + 3 ≤ 2 ^ 53 := by
          have := hgreatest rfl
          omega
        exact_mod_cast this
      generalize (2 : ℚ) ^ (971 : ℤ) = unit at hfull hhigh ⊢
      nlinarith

/-- What a decimal that is written for a double is read as: a positive double that is at most seven
half units away, and the double itself if the decimal has few digits and a small exponent. -/
def ReadsBack (m : ℕ) (q : ℤ) (D : ℕ) (E : ℤ) : Prop :=
  ∃ f v, scale D E = some f ∧ Holds f v ∧ |v - m * 2 ^ q| ≤ 7 * halfUnit (m * 2 ^ q) ∧
    (D < 2 ^ 53 → E.natAbs ≤ 22 → ∃ hm, f.toModel.unpack = .finite .positive m q hm)

/-- Half the distance to the next double. -/
theorem half_le_halfUnit {m : ℕ} {q : ℤ} (hdouble : IsDouble m q) :
    2 ^ q / 2 ≤ halfUnit (m * 2 ^ q) := by
  rcases hdouble.full with hfull | rfl
  · refine le_max_of_le_left ?_
    have hfull' : (2 : ℚ) ^ 52 ≤ m := by exact_mod_cast hfull
    calc (2 : ℚ) ^ q / 2 = 2 ^ 52 * 2 ^ q * 2 ^ (-53 : ℤ) := by
          norm_num
          ring
      _ ≤ m * 2 ^ q * 2 ^ (-53 : ℤ) :=
          mul_le_mul_of_nonneg_right (mul_le_mul_of_nonneg_right hfull' (two_zpow_pos q).le)
            (two_zpow_pos _).le
  · refine le_max_of_le_right (le_of_eq ?_)
    rw [show (-1075 : ℤ) = -1074 - 1 from rfl, zpow_sub_one₀ two_ne_zero, div_eq_mul_inv]

/-- A decimal in the interval of a double that is read within a few half units. -/
theorem Reads.back {m D : ℕ} {q E : ℤ} (h : Reads D E) (hm : 0 < m) (hdouble : IsDouble m q)
    (hD : 0 < D) (howns : (Interval.around m q).Owns (D * 10 ^ E)) : ReadsBack m q D E := by
  obtain ⟨f, v, hscale, hholds, hnear⟩ := h
  refine ⟨f, v, hscale, hholds, ?_, fun hlt hE => ⟨hm, ?_⟩⟩
  · obtain ⟨hlow, hhigh⟩ := howns.half_unit hm
    have hhalf := half_le_halfUnit hdouble
    have hvalue : |(D : ℚ) * 10 ^ E - m * 2 ^ q| ≤ 1 * halfUnit (m * 2 ^ q) := by
      rw [one_mul, abs_le]
      constructor <;> linarith
    refine (near_of_near one_pos.le (by norm_num) (by norm_num) hvalue hnear).trans ?_
    exact mul_le_mul_of_nonneg_right (by norm_num) (halfUnit_pos _).le
  · have hpacked := unpack_pack .positive hm hdouble
    have hread := scale_of_owned (x := .ofModel (.pack (.finite .positive m q hm))) hpacked hdouble
      hD hlt hE howns
    obtain rfl := Option.some.inj (hscale.symm.trans hread)
    exact hpacked

/-- The decimals of the two greatest doubles. -/
theorem readsBack_greatest : ReadsBack (2 ^ 53 - 1) 971 17976931348623157 292 ∧
    ReadsBack (2 ^ 53 - 2) 971 17976931348623155 292 := by
  have hunit := two_zpow_pos 971
  have hmul : ∀ m : ℕ, (m : ℚ) * 2 ^ (971 : ℤ) * 2 ^ (-53 : ℤ) ≤ halfUnit (m * 2 ^ (971 : ℤ)) :=
    fun m => le_max_left _ _
  obtain ⟨⟨f, hscale, hholds⟩, f', hscale', hholds'⟩ := holds_greatest
  refine ⟨⟨f, _, hscale, hholds, ?_, fun _ hE => absurd hE (by decide)⟩,
    ⟨f', _, hscale', hholds', ?_, fun _ hE => absurd hE (by decide)⟩⟩
  · rw [sub_self, abs_zero]
    exact mul_nonneg (by norm_num) (halfUnit_pos _).le
  · have hless := hmul (2 ^ 53 - 2)
    rw [show (-53 : ℤ) = -(53 : ℕ) from rfl, zpow_neg, zpow_natCast] at hless
    generalize (2 : ℚ) ^ (971 : ℤ) = unit at hunit hless ⊢
    generalize halfUnit _ = half at hless ⊢
    norm_num at hless ⊢
    rw [abs_le]
    constructor <;> linarith

/-- The shortest decimal of a double has few enough digits for a word, and lies in the interval of
the double. -/
theorem shortest_spec {m : ℕ} {q : ℤ} (hm : 0 < m) (hdouble : IsDouble m q) :
    (shortest .toEven m q).Proper ∧ 0 < naturalOf (shortest .toEven m q).digits ∧
      naturalOf (shortest .toEven m q).digits < Size.wordCount ∧
      (Interval.around m q).Owns (naturalOf (shortest .toEven m q).digits *
        10 ^ ((shortest .toEven m q).point - (shortest .toEven m q).digits.length)) := by
  obtain ⟨c, spacing, hfinds⟩ := finds_shortest .toEven q hm hdouble.lt
  obtain ⟨hproper, hdigits, hvalue⟩ := Digits.ofMultiple_spec spacing hfinds.pos
  rw [← hfinds.eq] at hproper hdigits hvalue
  have hpos : (0 : ℚ) < c * 10 ^ spacing :=
    mul_pos (by exact_mod_cast hfinds.pos) (zpow_pos (by norm_num) _)
  refine ⟨hproper, ?_, lt_of_le_of_lt (hdigits.trans hfinds.le) (by decide), hvalue ▸ hfinds.owns⟩
  refine Nat.pos_of_ne_zero fun hzero => ?_
  rw [hzero, Nat.cast_zero, zero_mul] at hvalue
  exact hpos.ne hvalue

/-- The shortest decimal of a double is read as a positive double. -/
theorem readsBack_shortest {m zeros : ℕ} {q : ℤ} (hm : 0 < m) (hdouble : IsDouble m q)
    (hlt : naturalOf (shortest .toEven m q).digits * 10 ^ zeros < Size.wordCount)
    (hzeros : 16 < (shortest .toEven m q).point → zeros = 0) :
    ReadsBack m q (naturalOf (shortest .toEven m q).digits * 10 ^ zeros)
      ((shortest .toEven m q).point - (shortest .toEven m q).digits.length - zeros) := by
  -- The two greatest doubles are too near the end for the bound on the error.
  by_cases hend : q = 971 ∧ 2 ^ 53 - 2 ≤ m
  · obtain ⟨rfl, hlarge⟩ := hend
    have hm' : m = 2 ^ 53 - 1 ∨ m = 2 ^ 53 - 2 := by
      have := hdouble.lt
      omega
    rcases hm' with rfl | rfl
    · rw [shortest_greatest.1] at hzeros ⊢
      obtain rfl := hzeros (by decide)
      exact readsBack_greatest.1
    · rw [shortest_greatest.2] at hzeros ⊢
      obtain rfl := hzeros (by decide)
      exact readsBack_greatest.2
  · obtain ⟨-, hpos, -, howns⟩ := shortest_spec hm hdouble
    rw [← mul_pow_zeros _ zeros] at howns
    have hleast : m = 1 → (2 : ℚ) ^ (-1074 : ℤ) ≤
        (naturalOf (shortest .toEven m q).digits * 10 ^ zeros : ℕ) *
          10 ^ ((shortest .toEven m q).point - (shortest .toEven m q).digits.length - zeros) := by
      rintro rfl
      obtain rfl : q = -1074 := hdouble.full.resolve_left (by decide)
      rw [mul_pow_zeros, shortest_least]
      exact least_le
    have hD : 0 < naturalOf (shortest .toEven m q).digits * 10 ^ zeros :=
      Nat.mul_pos hpos (Nat.pow_pos (by decide))
    obtain ⟨hlow, hhigh⟩ := howns.half_unit hm
    obtain ⟨hlow', hhigh'⟩ := shortest_range hm hdouble hleast
      (fun hq => not_le.mp fun hm' => hend ⟨hq, hm'⟩) hlow hhigh
    exact (holds_scale hD hlt hlow' hhigh').back hm hdouble hD howns

/-! ## What is read -/

theorem isFinite_eq (x : Float) : x.isFinite = match magnitude x with
    | .nan | .infinite => false
    | _ => true := by
  show x.toModel.unpack.isFinite = _
  rw [unpack_eq]
  cases hmagnitude : magnitude x with
  | nan | infinite | zero => rfl
  | finite m q =>
    rw [Magnitude.unpacked, dif_pos (isDouble_of_magnitude hmagnitude).1]
    rfl

theorem isUsable_of_finite {x : Float} {m : ℕ} {q : ℤ} (h : magnitude x = .finite m q) :
    Config.isUsable x = !isNegative x := by
  rw [isUsable_eq, unpack_eq, h, Magnitude.unpacked, dif_pos (isDouble_of_magnitude h).1, signOf]
  cases isNegative x <;> rfl

theorem not_isUsable_of_zero {x : Float} (h : magnitude x = .zero) : Config.isUsable x = false := by
  rw [isUsable_eq, unpack_eq, h]
  rfl

/-- What is not finite is written as a word. -/
theorem render_of_not_isFinite {x : Float} (h : x.isFinite = false) :
    Layout.data.render x = ['n', 'u', 'l', 'l'] := by
  rw [isFinite_eq] at h
  rw [Layout.render]
  cases hmagnitude : magnitude x with
  | nan => rfl
  | infinite =>
    dsimp only
    split <;> rfl
  | zero => simp [hmagnitude] at h
  | finite m q => simp [hmagnitude] at h

theorem reads_zero (negative : Bool) : ∃ y,
    Numeral.toFloat? ⟨negative, ['0'], some ['0'], none⟩ = some y ∧ Config.isUsable y = false := by
  cases negative with
  | false => exact ⟨0.0, by decide +kernel, by decide +kernel⟩
  | true => exact ⟨-0.0, by decide +kernel, by decide +kernel⟩

/-- What is written for a finite number other than zero. -/
theorem render_of_finite {x : Float} {m : ℕ} {q : ℤ} (h : magnitude x = .finite m q) :
    ∃ n, WritesNumber n (Layout.data.render x) ∧ n.negative = isNegative x ∧
      ReadsBack m q n.significand.1 n.significand.2 := by
  obtain ⟨hm, hdouble⟩ := isDouble_of_magnitude h
  obtain ⟨hproper, -, hword, -⟩ := shortest_spec hm hdouble
  obtain ⟨n, zeros, hsign, hwrites, hsignificand, hlt, hzeros⟩ :=
    Layout.data_isWritten hproper hword (isNegative x)
  rw [Layout.render, h]
  refine ⟨n, hwrites, hsign, ?_⟩
  rw [hsignificand]
  exact readsBack_shortest hm hdouble hlt hzeros

/-- A finite number is written as a number that is read, and what is read is usable exactly if the
written number is. -/
theorem reads_render {x : Float} (h : x.isFinite = true) :
    ∃ n y, WritesNumber n (Layout.data.render x) ∧ n.toFloat? = some y ∧
      Config.isUsable y = Config.isUsable x := by
  rw [isFinite_eq] at h
  cases hmagnitude : magnitude x with
  | nan => simp [hmagnitude] at h
  | infinite => simp [hmagnitude] at h
  | zero =>
    obtain ⟨y, hread, hunusable⟩ := reads_zero (isNegative x)
    refine ⟨_, y, ⟨['.', '0'], [], Json.isWhole_toDigits 0, .digits (Json.isDigits_toDigits 0),
      .none, ?_⟩, hread, hunusable.trans (not_isUsable_of_zero hmagnitude).symm⟩
    rw [Layout.render, hmagnitude]
    show signText x ++ ['0', '.', '0'] = _
    rw [signText]
    simp
  | finite m q =>
    obtain ⟨n, hwrites, hsign, f, v, hscale, hholds, -⟩ := render_of_finite hmagnitude
    refine ⟨n, if isNegative x then -f else f, hwrites, ?_, ?_⟩
    · rw [Numeral.toFloat?, hsign]
      simp only [hscale, Option.map_some]
    · rw [isUsable_of_finite hmagnitude]
      cases isNegative x with
      | false => exact hholds.isUsable
      | true => exact hholds.not_isUsable_neg

/-- A positive double is read as a double that is at most seven half units away, and as itself if
few digits and a small exponent are written. -/
theorem Holds.reads_render {x : Float} {v : ℚ} (h : Holds x v) :
    ∃ n y w, WritesNumber n (Layout.data.render x) ∧ n.toFloat? = some y ∧ Holds y w ∧
      |w - v| ≤ 7 * halfUnit v ∧
      (n.significand.1 < 2 ^ 53 → n.significand.2.natAbs ≤ 22 → y = x) := by
  obtain ⟨m, q, hm, hunpack, hdouble, rfl⟩ := h
  obtain ⟨hmagnitude, hpositive⟩ := magnitude_of_unpack hunpack
  have hsign : isNegative x = false := by
    rw [signOf] at hpositive
    cases hnegative : isNegative x with
    | false => rfl
    | true =>
      rw [hnegative] at hpositive
      cases hpositive
  obtain ⟨n, hwrites, hsame, y, w, hscale, hholds, hnear, hexact⟩ := render_of_finite hmagnitude
  refine ⟨n, y, w, hwrites, ?_, hholds, hnear, fun hfew hsmall => ?_⟩
  · rw [Numeral.toFloat?, hsame, hsign]
    simp only [hscale, Option.map_some]
    rfl
  · obtain ⟨_, hunpack'⟩ := hexact hfew hsmall
    exact eq_of_unpack_eq hunpack' hunpack

end Cubature.Decimal
