import Cubature.Proofs.Config.Storage

/-!
# The tolerance of a stored configuration

A valid configuration is loaded with the counts that were stored. Its tolerance comes back as a
double at most seven half units away (`tolerance_of_load_save`), and as the same double if the
shortest decimal has digits and a power of ten that are doubles themselves.

Other tolerances can move, since the power of ten is rounded before the digits are divided by it.
The tolerance `10 ^ -30` is written with one digit and comes back as the double below
(`tolerance_moves`).
-/

namespace Cubature.Config

open Decimal (Holds halfUnit)
open Json (WritesNumber Numeral)

/-- A usable tolerance is the double of a positive value. -/
theorem holds_of_isUsable {t : Float} (h : isUsable t = true) : ∃ v, Holds t v := by
  rw [Decimal.isUsable_eq, Decimal.unpack_eq] at h
  cases hmagnitude : Decimal.magnitude t with
  | nan | infinite | zero =>
    rw [hmagnitude] at h
    cases h
  | finite m q =>
    refine ⟨_, Decimal.holds_of_magnitude ?_ hmagnitude⟩
    have husable := Decimal.isUsable_of_finite hmagnitude
    rw [Decimal.isUsable_eq, Decimal.unpack_eq, h] at husable
    simpa using husable.symm

/-- A valid configuration that is stored is loaded with its counts and with a tolerance at most
seven half units from the stored one. The tolerance is the same, bit for bit, if the number that is
written for it has a significand below `2 ^ 53` and an exponent of at most 22. -/
theorem tolerance_of_load_save (c : Config) (hvalid : c.validate = .ok ())
    (hmax : c.maxOrder < Size.wordCount) (hiterations : c.maxNewtonIterations < Size.wordCount)
    (store : ByteArray → Bool) (hstore : ∀ bytes, store bytes = true) :
    ∃ bytes t n v w, c.save store = .ok bytes ∧
      load (some bytes) = .ok { c with newtonTolerance := t } ∧
      WritesNumber n (Decimal.Layout.data.render c.newtonTolerance) ∧
      Holds c.newtonTolerance v ∧ Holds t w ∧ |w - v| ≤ 7 * halfUnit v ∧
      (n.significand.1 < 2 ^ 53 → n.significand.2.natAbs ≤ 22 → t = c.newtonTolerance) := by
  obtain ⟨hmaxOrder, husable, hcount⟩ := validate_eq_ok_iff.mp hvalid
  obtain ⟨v, hv⟩ := holds_of_isUsable husable
  obtain ⟨n, t, w, hwrites, hread, hw, hnear, hexact⟩ := hv.reads_render
  have hloaded : ({ c with newtonTolerance := t } : Config).validate = .ok () :=
    validate_eq_ok_iff.mpr ⟨hmaxOrder, hw.isUsable, hcount⟩
  refine ⟨c.text.toUTF8, t, n, v, w, by rw [save, if_pos (hstore _)], ?_, hwrites, hv, hw, hnear,
    hexact⟩
  rw [load_toUTF8, ofText_text_of_reads hmax hiterations hwrites hread, hloaded]
  rfl

/-- A one with an exponent. -/
theorem writesNumber_one (exponent : ℤ) : WritesNumber ⟨false, ['1'], none, some exponent⟩
    ('1' :: 'e' :: (if exponent < 0 then '-' else '+') :: Nat.toDigits 10 exponent.natAbs) :=
  ⟨[], _, Json.isWhole_toDigits 1, .none, Json.writesExponent_toDigits exponent, rfl⟩

/-- The standard limits are loaded as they were stored. -/
theorem load_save_standard : ∃ bytes, standard.save (fun _ => true) = .ok bytes ∧
    load (some bytes) = .ok standard := by
  obtain ⟨bytes, t, n, v, w, hsave, hload, hwrites, -, -, -, hexact⟩ :=
    tolerance_of_load_save standard (by decide +kernel) (by decide) (by decide) (fun _ => true)
      fun _ => rfl
  have hrender :
      Decimal.Layout.data.render standard.newtonTolerance = ['1', 'e', '-', '1', '5'] := by
    decide +kernel
  rw [hrender] at hwrites
  obtain rfl := hwrites.unique (writesNumber_one (-15))
  obtain rfl := hexact (by decide) (by decide)
  exact ⟨bytes, hsave, hload⟩

/-- A valid tolerance that is stored comes back as another one: `10 ^ -30` as the double below. -/
theorem tolerance_moves : validate ⟨64, 1e-30, 100⟩ = .ok () ∧
    ∃ bytes t, save ⟨64, 1e-30, 100⟩ (fun _ => true) = .ok bytes ∧
      load (some bytes) = .ok ⟨64, t, 100⟩ ∧
      t.toBits = 0x39B4484BFEEBC29F ∧ (1e-30 : Float).toBits = 0x39B4484BFEEBC2A0 := by
  have hrender : Decimal.Layout.data.render 1e-30 = ['1', 'e', '-', '3', '0'] := by
    decide +kernel
  have hread : Numeral.toFloat? ⟨false, ['1'], none, some (-30)⟩ =
      some (.ofBits 0x39B4484BFEEBC29F) := by
    decide +kernel
  have hwrites : WritesNumber ⟨false, ['1'], none, some (-30)⟩
      (Decimal.Layout.data.render 1e-30) := by
    rw [hrender]
    exact writesNumber_one (-30)
  refine ⟨by decide +kernel, (⟨64, 1e-30, 100⟩ : Config).text.toUTF8, .ofBits 0x39B4484BFEEBC29F,
    by rw [save, if_pos rfl], ?_, by decide +kernel, by decide +kernel⟩
  rw [load_toUTF8, ofText_text_of_reads (by decide) (by decide) hwrites hread]
  have hvalid : validate ⟨64, .ofBits 0x39B4484BFEEBC29F, 100⟩ = .ok () := by decide +kernel
  rw [hvalid]
  rfl

end Cubature.Config
