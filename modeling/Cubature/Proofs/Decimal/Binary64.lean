import Cubature.Decimal.Binary64
import Cubature.Proofs.Decimal.Rounding

/-!
# The fields of a double

The model packs a number into a word of 64 bits and unpacks it for every operation; `magnitude` and
`isNegative` read the same word.

* `unpack_eq`: the model sees the sign and the magnitude of a number.
* `unpack_pack`: a double comes back out of its word.
-/

namespace Cubature.Decimal

open Float.Model Float.Model.UnpackedFloat

/-! ## The fields of a double -/

/-- The number that a sign and a magnitude stand for. -/
def Magnitude.unpacked (sign : Sign) : Magnitude → UnpackedFloat
  | .nan => .notANumber
  | .infinite => .infinity sign
  | .zero => .zero sign
  | .finite m q => if h : 0 < m then .finite sign m q h else .notANumber

/-- The sign that the sign bit stands for. -/
def signOf (x : Float) : Sign := if isNegative x then .negative else .positive

theorem ofNat_eq_iff {width n k : ℕ} (hn : n < 2 ^ width) (hk : k < 2 ^ width) :
    BitVec.ofNat width n = BitVec.ofNat width k ↔ n = k := by
  rw [← BitVec.toNat_inj, BitVec.toNat_ofNat, BitVec.toNat_ofNat, Nat.mod_eq_of_lt hn,
    Nat.mod_eq_of_lt hk]

/-- The leading bit, which a word leaves out, before the others. -/
theorem toNat_one_append (bits : BitVec 52) :
    (1#1 ++ bits).toNat = fractionCount + bits.toNat := by
  rw [BitVec.toNat_append, ← Nat.shiftLeft_add_eq_or_of_lt (BitVec.isLt _)]
  rfl

/-- A word is unpacked into the magnitude that its fields stand for. -/
theorem unpack_of_fields {bits : BitVec 64} {field fraction : ℕ} (hfield : field < 2 ^ 11)
    (hfraction : fraction < 2 ^ 52)
    (hexponent : @unpackExponent Format.binary64 bits = BitVec.ofNat 11 field)
    (hmantissa : @unpackMantissa Format.binary64 bits = BitVec.ofNat 52 fraction) :
    UnpackedFloat.unpack Format.binary64 bits =
      (Magnitude.ofFields field fraction).unpacked
        (Sign.ofBitVec (@unpackSign Format.binary64 bits)) := by
  have hfirst : @unpackExponent Format.binary64 bits = 0#11 ↔ field = 0 := by
    rw [hexponent]
    exact ofNat_eq_iff hfield (by decide)
  have hlast : @unpackExponent Format.binary64 bits = -1#11 ↔ field + 1 = exponentCount := by
    rw [hexponent, show exponentCount = 2047 + 1 from rfl, Nat.add_right_cancel_iff]
    exact ofNat_eq_iff (k := 2047) hfield (by decide)
  have hempty : @unpackMantissa Format.binary64 bits = 0#52 ↔ fraction = 0 := by
    rw [hmantissa]
    exact ofNat_eq_iff hfraction (by decide)
  have hplace : (@unpackExponent Format.binary64 bits).toNat = field := by
    rw [hexponent]
    exact Nat.mod_eq_of_lt hfield
  have hbits : (@unpackMantissa Format.binary64 bits).toNat = fraction := by
    rw [hmantissa]
    exact Nat.mod_eq_of_lt hfraction
  have hleading :
      (1#1 ++ @unpackMantissa Format.binary64 bits).toNat = fractionCount + fraction := by
    rw [toNat_one_append, hbits]
  rw [Magnitude.ofFields]
  by_cases hnonfinite : field + 1 = exponentCount
  · -- An infinity, or not a number.
    rw [if_pos hnonfinite]
    refine (if_pos (hlast.mpr hnonfinite)).trans ?_
    by_cases hzero : fraction = 0
    · rw [if_pos hzero]
      exact if_pos (hempty.mpr hzero)
    · rw [if_neg hzero]
      exact if_neg (mt hempty.mp hzero)
  · rw [if_neg hnonfinite]
    refine (if_neg (mt hlast.mp hnonfinite)).trans ?_
    by_cases hsubnormal : field = 0
    · -- Without a leading bit, so that zero is among these.
      rw [if_pos hsubnormal]
      refine (if_pos (hfirst.mpr hsubnormal)).trans ?_
      by_cases hzero : fraction = 0
      · rw [if_pos hzero]
        exact dif_pos (hempty.mpr hzero)
      · rw [if_neg hzero, Magnitude.unpacked, dif_pos (Nat.pos_of_ne_zero hzero)]
        refine (dif_neg (mt hempty.mp hzero)).trans ?_
        rw [finite.injEq, hplace, hsubnormal]
        exact ⟨rfl, hbits, rfl⟩
    · rw [if_neg hsubnormal, Magnitude.unpacked, dif_pos (Nat.add_pos_left (by decide) _)]
      refine (if_neg (mt hfirst.mp hsubnormal)).trans ?_
      rw [finite.injEq, hplace]
      exact ⟨rfl, hleading, rfl⟩

theorem unpackSign_eq (bits : BitVec 64) :
    @unpackSign Format.binary64 bits = bits.extractLsb 63 63 := rfl

/-- The first bit of a word is its sign. -/
theorem ofBitVec_unpackSign_pack (sign : Sign) (exponent : BitVec 11) (mantissa : BitVec 52) :
    Sign.ofBitVec (@unpackSign Format.binary64 (packComponents Format.binary64 sign exponent
      mantissa)) = sign := by
  have hfirst : (sign.toBitVec ++ exponent ++ mantissa).getLsbD 63 = sign.toBitVec[0] := by
    rw [BitVec.getLsbD_append, BitVec.getLsbD_append]
    rfl
  have hbit : @unpackSign Format.binary64 (packComponents Format.binary64 sign exponent mantissa) =
      sign.toBitVec := by
    ext i hi
    obtain rfl : i = 0 := by omega
    rw [unpackSign_eq, BitVec.getElem_extract]
    exact hfirst
  rw [hbit]
  cases sign <;> rfl

/-- The fields that are packed are unpacked again. -/
theorem unpack_packComponents (sign : Sign) {field fraction : ℕ} (hfield : field < 2 ^ 11)
    (hfraction : fraction < 2 ^ 52) :
    UnpackedFloat.unpack Format.binary64 (packComponents Format.binary64 sign
      (BitVec.ofNat 11 field) (BitVec.ofNat 52 fraction)) =
    (Magnitude.ofFields field fraction).unpacked sign := by
  rw [unpack_of_fields hfield hfraction unpackExponent_packComponents
    unpackMantissa_packComponents, ofBitVec_unpackSign_pack]

theorem ofBitVec_unpackSign (x : Float) :
    Sign.ofBitVec (@unpackSign Format.binary64 x.toBits.toBitVec) = signOf x := by
  have hbit : (@unpackSign Format.binary64 x.toBits.toBitVec).toNat = x.toBits.toNat / 2 ^ 63 := by
    have hlt : x.toBits.toNat < 2 ^ 64 := x.toBits.toBitVec.isLt
    simp [unpackSign_eq, BitVec.extractLsb_toNat, Nat.shiftRight_eq_div_pow]
    omega
  have hunit : signUnit = 2 ^ 63 := by decide
  have hzero : @unpackSign Format.binary64 x.toBits.toBitVec = 0#1 ↔ ¬2 ^ 63 ≤ x.toBits.toNat := by
    rw [← BitVec.toNat_inj, hbit]
    show x.toBits.toNat / 2 ^ 63 = 0 ↔ _
    omega
  rw [Sign.ofBitVec, signOf, isNegative, hunit]
  by_cases hnegative : 2 ^ 63 ≤ x.toBits.toNat
  · rw [if_neg (mt hzero.mp (not_not.mpr hnegative)), if_pos (decide_eq_true hnegative)]
  · rw [if_pos (hzero.mpr hnegative), if_neg (by simpa using hnegative)]

/-- The model unpacks a number into its sign and its magnitude. -/
theorem unpack_eq (x : Float) : x.toModel.unpack = (magnitude x).unpacked (signOf x) := by
  have hexponent : @unpackExponent Format.binary64 x.toBits.toBitVec =
      BitVec.ofNat 11 (x.toBits.toNat / 2 ^ 52 % 2 ^ 11) := by
    apply BitVec.eq_of_toNat_eq
    simp [unpackExponent, BitVec.extractLsb_toNat, Nat.shiftRight_eq_div_pow]
  have hmantissa : @unpackMantissa Format.binary64 x.toBits.toBitVec =
      BitVec.ofNat 52 (x.toBits.toNat % 2 ^ 52) := by
    apply BitVec.eq_of_toNat_eq
    simp [unpackMantissa, BitVec.extractLsb_toNat]
  show UnpackedFloat.unpack Format.binary64 x.toBits.toBitVec = _
  rw [unpack_of_fields (Nat.mod_lt _ (by decide)) (Nat.mod_lt _ (by decide)) hexponent hmantissa,
    ofBitVec_unpackSign]
  rfl

theorem unpack_zero : (0.0 : Float).toModel.unpack = .zero .positive := by
  rw [unpack_eq, show magnitude 0.0 = .zero by decide +kernel, signOf,
    if_neg (show ¬isNegative 0.0 = true by decide +kernel)]
  rfl

/-- A finite magnitude is that of a double. -/
theorem isDouble_of_magnitude {x : Float} {m : ℕ} {q : ℤ} (h : magnitude x = .finite m q) :
    0 < m ∧ IsDouble m q := by
  have hfields : magnitude x =
      .ofFields (x.toBits.toNat / 2 ^ 52 % 2 ^ 11) (x.toBits.toNat % 2 ^ 52) := rfl
  have hfield : x.toBits.toNat / 2 ^ 52 % 2 ^ 11 < 2 ^ 11 := Nat.mod_lt _ (by decide)
  have hfraction : x.toBits.toNat % 2 ^ 52 < 2 ^ 52 := Nat.mod_lt _ (by decide)
  rw [h] at hfields
  generalize x.toBits.toNat / 2 ^ 52 % 2 ^ 11 = field at hfields hfield
  generalize x.toBits.toNat % 2 ^ 52 = fraction at hfields hfraction
  have hexponents : exponentCount = 2048 := rfl
  have hfractions : fractionCount = 2 ^ 52 := rfl
  rw [Magnitude.ofFields, hexponents, hfractions] at hfields
  split at hfields
  · split at hfields <;> cases hfields
  · split at hfields
    · split at hfields
      · cases hfields
      · cases hfields
        exact ⟨by omega, by omega, by omega, by omega, .inr rfl⟩
    · cases hfields
      exact ⟨by omega, by omega, by omega, by omega, .inl (by omega)⟩

/-- The fields of a finite magnitude. -/
theorem fields_eq {field fraction : ℕ} {m : ℕ} {q : ℤ} (hfraction : fraction < 2 ^ 52)
    (h : Magnitude.ofFields field fraction = .finite m q) :
    fraction = m % 2 ^ 52 ∧ field = if m < 2 ^ 52 then 0 else (q + 1075).toNat := by
  have hfractions : fractionCount = 2 ^ 52 := rfl
  rw [Magnitude.ofFields, hfractions] at h
  split at h
  · split at h <;> cases h
  · split at h
    · rename_i hzero
      split at h <;> cases h
      rw [if_pos hfraction]
      exact ⟨(Nat.mod_eq_of_lt hfraction).symm, hzero⟩
    · cases h
      rw [if_neg (by omega)]
      constructor <;> omega

/-- What is unpacked as a finite number has its magnitude and its sign. -/
theorem magnitude_of_unpack {x : Float} {sign : Sign} {m : ℕ} {q : ℤ} {hm : 0 < m}
    (h : x.toModel.unpack = .finite sign m q hm) : magnitude x = .finite m q ∧ signOf x = sign := by
  rw [unpack_eq] at h
  cases hmagnitude : magnitude x with
  | nan | infinite | zero =>
    rw [hmagnitude] at h
    cases h
  | finite m' q' =>
    rw [hmagnitude, Magnitude.unpacked, dif_pos (isDouble_of_magnitude hmagnitude).1] at h
    cases h
    exact ⟨rfl, rfl⟩

/-- A number is known by its sign and its finite magnitude. -/
theorem eq_of_unpack_eq {x y : Float} {sign : Sign} {m : ℕ} {q : ℤ} {hm : 0 < m}
    (hx : x.toModel.unpack = .finite sign m q hm) (hy : y.toModel.unpack = .finite sign m q hm) :
    x = y := by
  obtain ⟨hmx, hsx⟩ := magnitude_of_unpack hx
  obtain ⟨hmy, hsy⟩ := magnitude_of_unpack hy
  have hsign : isNegative x = isNegative y := by
    rw [← hsy, signOf, signOf] at hsx
    cases hnx : isNegative x <;> cases hny : isNegative y <;> simp [hnx, hny] at hsx ⊢
  have hunit : signUnit = 2 ^ 63 := by decide
  have hword : x.toBits.toNat = y.toBits.toNat := by
    obtain ⟨hfractionx, hfieldx⟩ := fields_eq (Nat.mod_lt _ (by decide)) hmx
    obtain ⟨hfractiony, hfieldy⟩ := fields_eq (Nat.mod_lt _ (by decide)) hmy
    have hfraction := hfractionx.trans hfractiony.symm
    have hfield := hfieldx.trans hfieldy.symm
    have hltx : x.toBits.toNat < 2 ^ 64 := x.toBits.toBitVec.isLt
    have hlty : y.toBits.toNat < 2 ^ 64 := y.toBits.toBitVec.isLt
    rw [isNegative, isNegative, hunit, decide_eq_decide] at hsign
    change x.toBits.toNat % 2 ^ 52 = y.toBits.toNat % 2 ^ 52 at hfraction
    change x.toBits.toNat / 2 ^ 52 % 2 ^ 11 = y.toBits.toNat / 2 ^ 52 % 2 ^ 11 at hfield
    omega
  have hbits : x.toModel.toBits = y.toModel.toBits := UInt64.toNat_inj.mp hword
  obtain ⟨⟨bitsx, _⟩⟩ := x
  obtain ⟨⟨bitsy, _⟩⟩ := y
  obtain rfl : bitsx = bitsy := hbits
  rfl

/-- A double is packed without loss. -/
theorem unpack_pack (sign : Sign) {m : ℕ} {e : ℤ} (hm : 0 < m) (h : IsDouble m e) :
    (Float.Model.pack (.finite sign m e hm)).unpack = .finite sign m e hm := by
  obtain ⟨hlt, hleast, hgreatest, hfull⟩ := h
  obtain ⟨field, hfield⟩ : ∃ field : ℕ, e + 1075 = field :=
    ⟨_, (Int.toNat_of_nonneg (by omega)).symm⟩
  have hbias : (e + 1023 + 52).toNat = field := by omega
  have hpack : UnpackedFloat.pack Format.binary64 (.finite sign m e hm) =
      if m.log2 + 1 = 53 then
        packComponents Format.binary64 sign (BitVec.ofNat 11 field) (BitVec.ofNat 52 m)
      else packComponents Format.binary64 sign 0#11 (BitVec.ofNat 52 m) := by
    rw [← hbias]
    exact if_neg (show ¬2 ^ 11 ≤ (e + 1023 + 52).toNat + 1 by omega)
  show UnpackedFloat.unpack Format.binary64 (UnpackedFloat.pack Format.binary64 _) = _
  rw [hpack]
  by_cases hnormal : 2 ^ 52 ≤ m
  · have hlog : m.log2 = 52 := (Nat.log2_eq_iff hm.ne').mpr ⟨hnormal, hlt⟩
    obtain ⟨fraction, rfl⟩ := Nat.exists_eq_add_of_le hnormal
    have hfraction : BitVec.ofNat 52 (2 ^ 52 + fraction) = BitVec.ofNat 52 fraction := by
      apply BitVec.eq_of_toNat_eq
      rw [BitVec.toNat_ofNat, BitVec.toNat_ofNat, Nat.add_mod_left]
    have hmagnitude : Magnitude.ofFields field fraction = .finite (2 ^ 52 + fraction) e := by
      rw [Magnitude.ofFields, if_neg (by show field + 1 ≠ 2048; omega), if_neg (by omega)]
      congr 1
      omega
    rw [if_pos (by rw [hlog]), hfraction, unpack_packComponents sign (by omega) (by omega),
      hmagnitude, Magnitude.unpacked, dif_pos hm]
  · have hlog : m.log2 < 52 := (Nat.log2_lt hm.ne').mpr (not_le.mp hnormal)
    obtain rfl : e = -1074 := hfull.resolve_left hnormal
    have hmagnitude : Magnitude.ofFields 0 m = .finite m (-1074) := by
      rw [Magnitude.ofFields, if_neg (by decide), if_pos rfl, if_neg hm.ne']
    have hunpack := @unpack_packComponents sign 0 m (by decide) (not_le.mp hnormal)
    rw [hmagnitude, Magnitude.unpacked, dif_pos hm] at hunpack
    rw [if_neg (by omega)]
    exact hunpack

end Cubature.Decimal
