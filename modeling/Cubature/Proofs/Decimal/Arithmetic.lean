import Cubature.Decimal.Scaled
import Cubature.Proofs.Decimal.Binary64
import Mathlib.Data.Nat.Cast.Field

/-!
# Products and quotients of doubles

A positive number `Holds` a value. The result of an operation holds a value within half a unit of
the exact one, provided that this neither overflows nor vanishes: a product (`Holds.mul`), a
quotient (`Holds.div`), a whole number with a power of ten (`holds_ofScientific`).
-/

namespace Cubature.Decimal

open Float.Model Float.Model.UnpackedFloat

/-- The number is a positive double with the value `v`. -/
def Holds (x : Float) (v : ℚ) : Prop :=
  ∃ m e hm, x.toModel.unpack = .finite .positive m e hm ∧ IsDouble m e ∧ v = m * 2 ^ e

theorem Holds.pos {x : Float} {v : ℚ} (h : Holds x v) : 0 < v := by
  obtain ⟨m, e, hm, -, -, rfl⟩ := h
  have := two_zpow_pos e
  positivity

theorem holds_pack {m : ℕ} {e : ℤ} (hm : 0 < m) (h : IsDouble m e) :
    Holds (.ofModel (.pack (.finite .positive m e hm))) (m * 2 ^ e) :=
  ⟨m, e, hm, unpack_pack .positive hm h, h, rfl⟩

/-- A rounded value that neither vanishes nor overflows. -/
theorem Rounds.holds {x : ℚ} {q : ℕ} {e : ℤ} (h : Rounds x q e) (hlow : 2 ^ (-1075 : ℤ) < x)
    (hhigh : x < overflow) :
    ∃ v, Holds (.ofModel (.pack (finish .positive q e))) v ∧ |v - x| ≤ halfUnit x := by
  obtain ⟨m, e', hm, hfinish, hdouble, hnear⟩ := h.exists_double .positive hlow hhigh
  rw [hfinish]
  exact ⟨_, holds_pack hm hdouble, hnear⟩

/-- The exponent of a product is not above the one it is rounded to. -/
theorem add_le_targetExponent {m n : ℕ} {e f : ℤ} (hm : 0 < m) (hn : 0 < n) (hme : IsDouble m e)
    (hnf : IsDouble n f) :
    e + f ≤ Format.binary64.targetExponent (totalExponent (m * n) (e + f)) := by
  rw [targetExponent_eq]
  have hbits (h : 2 ^ 52 ≤ m * n) : 52 ≤ (m * n).log2 :=
    (Nat.le_log2 (Nat.mul_pos hm hn).ne').mpr h
  rcases hme.full, hnf.full with ⟨hfull | he, hfull' | hf⟩
  · have := hbits (hfull.trans (Nat.le_mul_of_pos_right m hn))
    omega
  · have := hbits (hfull.trans (Nat.le_mul_of_pos_right m hn))
    omega
  · have := hbits (hfull'.trans (Nat.le_mul_of_pos_left n hm))
    omega
  · omega

theorem Holds.mul_rounds {x y : Float} {v w : ℚ} (hx : Holds x v) (hy : Holds y w) :
    ∃ q e, Rounds (v * w) q e ∧ x * y = .ofModel (.pack (finish .positive q e)) := by
  obtain ⟨m, e, hm, hunpack, hdouble, rfl⟩ := hx
  obtain ⟨n, f, hn, hunpack', hdouble', rfl⟩ := hy
  obtain ⟨q, e', hrounds, hround⟩ := roundWithAccuracy_eq .positive (Tracks.exact (m * n))
    (add_le_targetExponent hm hn hdouble hdouble')
  have hvalue : ((m * n : ℕ) : ℚ) * 2 ^ (e + f) = m * 2 ^ e * (n * 2 ^ f) := by
    rw [zpow_add₀ two_ne_zero]
    push_cast
    ring
  refine ⟨q, e', hvalue ▸ hrounds, ?_⟩
  show Float.ofModel (.pack (UnpackedFloat.mul Format.binary64 x.toModel.unpack y.toModel.unpack)) =
    _
  rw [hunpack, hunpack', ← hround]
  rfl

/-- A product is rounded once. -/
theorem Holds.mul {x y : Float} {v w : ℚ} (hx : Holds x v) (hy : Holds y w)
    (hlow : 2 ^ (-1075 : ℤ) < v * w) (hhigh : v * w < overflow) :
    ∃ u, Holds (x * y) u ∧ |u - v * w| ≤ halfUnit (v * w) := by
  obtain ⟨q, e, hrounds, hmul⟩ := hx.mul_rounds hy
  rw [hmul]
  exact hrounds.holds hlow hhigh

/-- The quotient is computed with enough bits: its exponent is not above the one that it is rounded
to. -/
theorem divCore_le_targetExponent {m n : ℕ} {e f te : ℤ} {shift : ℕ} (hm : 0 < m) (hn : 0 < n)
    (hshift : e - f - te = shift) (hte : te ≤ max (m.log2 - n.log2 + (e - f) - 53) (-1074)) :
    te ≤ Format.binary64.targetExponent (totalExponent ((m <<< shift) / n) te) := by
  rw [targetExponent_eq]
  by_cases hfew : m.log2 + shift < n.log2 + 1
  · omega
  · have hle : 2 ^ (m.log2 + shift - (n.log2 + 1)) ≤ (m <<< shift) / n := by
      rw [Nat.le_div_iff_mul_le hn, Nat.shiftLeft_eq]
      calc 2 ^ (m.log2 + shift - (n.log2 + 1)) * n
          ≤ 2 ^ (m.log2 + shift - (n.log2 + 1)) * 2 ^ (n.log2 + 1) :=
            Nat.mul_le_mul_left _ Nat.lt_log2_self.le
        _ = 2 ^ m.log2 * 2 ^ shift := by
            rw [← Nat.pow_add, ← Nat.pow_add]
            congr 1
            omega
        _ ≤ m * 2 ^ shift := Nat.mul_le_mul_right _ (Nat.log2_self_le hm.ne')
    have hne : (m <<< shift) / n ≠ 0 := (lt_of_lt_of_le (Nat.two_pow_pos _) hle).ne'
    have hlog := (Nat.le_log2 hne).mpr hle
    omega

theorem Holds.div_rounds {x y : Float} {v w : ℚ} (hx : Holds x v) (hy : Holds y w) :
    ∃ q e, Rounds (v / w) q e ∧ x / y = .ofModel (.pack (finish .positive q e)) := by
  obtain ⟨m, e, hm, hunpack, hdouble, rfl⟩ := hx
  obtain ⟨n, f, hn, hunpack', hdouble', rfl⟩ := hy
  obtain ⟨te, hte⟩ : ∃ te, te = min (e - f)
      (Format.binary64.targetExponent (totalExponent m e - totalExponent n f)) := ⟨_, rfl⟩
  obtain ⟨shift, hshift⟩ : ∃ shift : ℕ, e - f - te = shift :=
    ⟨_, (Int.toNat_of_nonneg (by omega)).symm⟩
  have hcore : divCore Format.binary64 m e n f =
      ((m <<< shift) / n, te, accuracyOfFraction ((m <<< shift) % n) n) := by
    rw [divCore, ← hte, hshift, Int.toNat_natCast]
  have htarget : Format.binary64.targetExponent (totalExponent m e - totalExponent n f) =
      max (m.log2 - n.log2 + (e - f) - 53) (-1074) := by
    rw [targetExponent_binary64, totalExponent, totalExponent]
    omega
  have hle := divCore_le_targetExponent hm hn hshift (htarget ▸ hte ▸ min_le_right _ _)
  obtain ⟨q, e', hrounds, hround⟩ :=
    roundWithAccuracy_eq .positive (Tracks.quotient (m <<< shift) hn) hle
  have hvalue : ((m <<< shift : ℕ) : ℚ) / n * 2 ^ te = m * 2 ^ e / (n * 2 ^ f) := by
    have hexponent : (2 : ℚ) ^ shift * 2 ^ te = 2 ^ e / 2 ^ f := by
      rw [← zpow_natCast, ← zpow_add₀ two_ne_zero, ← zpow_sub₀ two_ne_zero]
      congr 1
      omega
    rw [Nat.shiftLeft_eq, mul_div_mul_comm, ← hexponent]
    push_cast
    ring
  refine ⟨q, e', hvalue ▸ hrounds, ?_⟩
  show Float.ofModel (.pack (UnpackedFloat.div Format.binary64 x.toModel.unpack y.toModel.unpack)) =
    _
  rw [hunpack, hunpack', ← hround]
  show Float.ofModel (.pack (roundWithAccuracy Format.binary64 .positive
    (divCore Format.binary64 m e n f).1 (divCore Format.binary64 m e n f).2.1
    (divCore Format.binary64 m e n f).2.2)) = _
  rw [hcore]

/-- A quotient is rounded once. -/
theorem Holds.div {x y : Float} {v w : ℚ} (hx : Holds x v) (hy : Holds y w)
    (hlow : 2 ^ (-1075 : ℤ) < v / w) (hhigh : v / w < overflow) :
    ∃ u, Holds (x / y) u ∧ |u - v / w| ≤ halfUnit (v / w) := by
  obtain ⟨q, e, hrounds, hdiv⟩ := hx.div_rounds hy
  rw [hdiv]
  exact hrounds.holds hlow hhigh

/-! ## Whole numbers -/

theorem holds_of_magnitude {x : Float} {m : ℕ} {q : ℤ} (hsign : isNegative x = false)
    (h : magnitude x = .finite m q) : Holds x (m * 2 ^ q) := by
  obtain ⟨hm, hdouble⟩ := isDouble_of_magnitude h
  refine ⟨m, q, hm, ?_, hdouble, rfl⟩
  rw [unpack_eq, h, signOf, hsign, Magnitude.unpacked, dif_pos hm]
  rfl

/-- A small natural number is a double itself. -/
theorem holds_ofUInt64 {n : ℕ} (hn : 0 < n) (hlt : n < 2 ^ 53) : Holds n.toUInt64.toFloat n := by
  obtain ⟨shift, hshift⟩ : ∃ shift, n.log2 + shift = 52 := by
    have := (Nat.log2_lt hn.ne').mpr hlt
    exact ⟨52 - n.log2, by omega⟩
  have hword : n.toUInt64.toNat = n := Nat.mod_eq_of_lt (by omega)
  have hvalue : ((n <<< shift : ℕ) : ℚ) * 2 ^ (-(shift : ℤ)) = n := by
    rw [Nat.shiftLeft_eq, zpow_neg, zpow_natCast]
    push_cast
    exact mul_inv_cancel_right₀ (pow_pos two_pos shift).ne' _
  have hpos : 0 < n <<< shift := Nat.shiftLeft_pos_iff.mpr hn
  have hlow : 2 ^ 52 ≤ n <<< shift := by
    rw [Nat.shiftLeft_eq, ← hshift, Nat.pow_add]
    exact Nat.mul_le_mul_right _ (Nat.log2_self_le hn.ne')
  have hhigh : n <<< shift < 2 ^ 53 := by
    rw [Nat.shiftLeft_eq, show 53 = n.log2 + 1 + shift by omega, Nat.pow_add]
    exact Nat.mul_lt_mul_of_pos_right Nat.lt_log2_self (Nat.two_pow_pos shift)
  have hlog : (n <<< shift).log2 = 52 := (Nat.log2_eq_iff hpos.ne').mpr ⟨hlow, hhigh⟩
  have hdouble : IsDouble (n <<< shift) (-shift) := ⟨hhigh, by omega, by omega, .inl hlow⟩
  obtain ⟨q, e, hrounds, hround⟩ := roundWithAccuracy_eq .positive (Tracks.exact (n <<< shift))
    (e := -(shift : ℤ)) (by rw [targetExponent_eq, hlog]; omega)
  have hfloat : n.toUInt64.toFloat = .ofModel (.pack (finish .positive q e)) := by
    show Float.ofModel (.pack (UnpackedFloat.ofNat Format.binary64 n.toUInt64.toNat)) = _
    have htarget : max ((n.log2 : ℤ) + 0 - 52) (-1074) = -shift := by omega
    have hamount : (0 - -(shift : ℤ)).toNat = shift := by omega
    rw [hword, UnpackedFloat.ofNat, UnpackedFloat.ofInt,
      UnpackedFloat.normalize, Int.compare_eq_gt.mpr (by omega)]
    show Float.ofModel (.pack (UnpackedFloat.round Format.binary64 .positive n 0)) = _
    rw [UnpackedFloat.round, targetExponent_eq, htarget, decreaseExponent, hamount, zero_sub]
    dsimp only
    rw [hround]
  rw [hfloat, hrounds.eq_of_isDouble .positive hpos hdouble]
  exact hvalue ▸ holds_pack hpos hdouble

/-- A whole number with a power of ten is rounded once, unless both are doubles themselves. -/
theorem ofScientific_rounds {n k : ℕ} (hn : 0 < n) (hk : k ≤ 2048) :
    ∃ q e, Rounds (n * 10 ^ k) q e ∧
      UnpackedFloat.ofScientific Format.binary64 n k = finish .positive q e := by
  have hpos : 0 < n <<< 53 * 10 ^ k :=
    Nat.mul_pos (Nat.shiftLeft_pos_iff.mpr hn) (Nat.pow_pos (by decide))
  have hle : 2 ^ 53 ≤ n <<< 53 * 10 ^ k := by
    rw [Nat.shiftLeft_eq]
    calc 2 ^ 53 ≤ n * 2 ^ 53 := Nat.le_mul_of_pos_left _ hn
      _ ≤ n * 2 ^ 53 * 10 ^ k := Nat.le_mul_of_pos_right _ (Nat.pow_pos (by decide))
  have hlog := (Nat.le_log2 hpos.ne').mpr hle
  obtain ⟨q, e, hrounds, hround⟩ :=
    roundWithAccuracy_eq .positive (Tracks.exact (n <<< 53 * 10 ^ k)) (e := -53 + 0)
      (by rw [targetExponent_eq]; omega)
  have hvalue : ((n <<< 53 * 10 ^ k : ℕ) : ℚ) * 2 ^ (-53 + 0 : ℤ) = n * 10 ^ k := by
    rw [Nat.shiftLeft_eq]
    push_cast
    norm_num
    ring
  refine ⟨q, e, hvalue ▸ hrounds, ?_⟩
  rw [UnpackedFloat.ofScientific, dif_neg hn.ne', if_neg (by norm_num; omega),
    if_neg (by norm_num; omega), if_pos (by omega), ← hround]
  rfl

/-- The powers of ten up to `10 ^ 22` are doubles themselves. -/
theorem powersOfTen_fields : ∀ k : Fin Float.exactlyRepresentablePowersOfTen.size,
    isNegative Float.exactlyRepresentablePowersOfTen[k] = false ∧
      magnitude Float.exactlyRepresentablePowersOfTen[k] =
        .finite (10 ^ k.val * 2 ^ 52 / 2 ^ (10 ^ k.val).log2) (((10 ^ k.val).log2 : ℕ) - 52) ∧
      2 ^ (10 ^ k.val).log2 ∣ 10 ^ k.val * 2 ^ 52 := by
  decide +kernel

theorem holds_exactlyRepresentable {k : ℕ} (hk : k < Float.exactlyRepresentablePowersOfTen.size) :
    Holds Float.exactlyRepresentablePowersOfTen[k] (10 ^ k) := by
  obtain ⟨hsign, hmagnitude, hdvd⟩ := powersOfTen_fields ⟨k, hk⟩
  have hvalue : ((10 ^ k * 2 ^ 52 / 2 ^ (10 ^ k).log2 : ℕ) : ℚ) *
      2 ^ (((10 ^ k).log2 : ℕ) - 52 : ℤ) = 10 ^ k := by
    rw [Nat.cast_div hdvd (by positivity), zpow_sub₀ two_ne_zero, zpow_natCast]
    push_cast
    have hpow : (2 : ℚ) ^ (10 ^ k).log2 ≠ 0 := pow_ne_zero _ two_ne_zero
    generalize (2 : ℚ) ^ (10 ^ k).log2 = scale at hpow
    field_simp
  exact hvalue ▸ holds_of_magnitude hsign hmagnitude

/-- A whole number with a power of ten is rounded once. -/
theorem holds_ofScientific {n k : ℕ} (hn : 0 < n) (hk : k ≤ 2048)
    (hhigh : (n : ℚ) * 10 ^ k < overflow) :
    ∃ v, Holds (Float.ofScientific n false k) v ∧ |v - n * 10 ^ k| ≤ halfUnit (n * 10 ^ k) := by
  have hone : (1 : ℚ) ≤ n * 10 ^ k := by
    have : 1 ≤ n * 10 ^ k := Nat.mul_pos hn (Nat.pow_pos (by decide))
    exact_mod_cast this
  have hlow : (2 : ℚ) ^ (-1075 : ℤ) < n * 10 ^ k := by
    refine lt_of_lt_of_le ?_ hone
    exact zpow_lt_one_of_neg₀ one_lt_two (by decide)
  rw [Float.ofScientific]
  split
  · rename_i hfast
    exact (holds_ofUInt64 hn hfast.1).mul (holds_exactlyRepresentable _) hlow hhigh
  · obtain ⟨q, e, hrounds, heq⟩ := ofScientific_rounds hn hk
    show ∃ v, Holds (.ofModel (.pack (UnpackedFloat.ofScientific Format.binary64 n k))) v ∧ _
    rw [heq]
    exact hrounds.holds hlow hhigh

end Cubature.Decimal
