import Cubature.Proofs.Decimal.Arithmetic
import Cubature.Scalar

/-!
# Powers of two

Powers by repeated squaring are exact on two (`isTwoPower_powerInt`). Past the largest double they
are infinite, and the reciprocal of an infinite power is zero (`IsTwoPower`). They are exact on one
half as long as they stay in the range (`holds_powerInt_half`).

A value is that of at most one double (`Holds.unique`).
-/

namespace Cubature.Decimal

open Float.Model Float.Model.UnpackedFloat
open scoped Scalar

/-- The number is two to the power `k`. It is infinite if that is past the largest double, and zero
if the reciprocal of that is. -/
structure IsTwoPower (x : Float) (k : ℤ) : Prop where
  holds : -1023 ≤ k → k ≤ 1023 → Holds x (2 ^ k)
  infinite : 1023 < k → x.toModel.unpack = .infinity .positive
  zero : k < -1023 → x.toModel.unpack = .zero .positive

/-! ## Rounding -/

theorem two_zpow_eq_mul (n : ℕ) (k : ℤ) : (2 : ℚ) ^ k = ((2 ^ n : ℕ) : ℚ) * 2 ^ (k - n) := by
  rw [Nat.cast_pow, Nat.cast_ofNat, ← zpow_natCast, ← zpow_add₀ two_ne_zero, add_sub_cancel]

/-- A power of two is not rounded, unless it is out of range. -/
theorem Rounds.holds_two_zpow {k e : ℤ} {q : ℕ} (h : Rounds (2 ^ k) q e) (hlow : -1023 ≤ k)
    (hhigh : k ≤ 1023) : Holds (.ofModel (.pack (finish .positive q e))) (2 ^ k) := by
  -- The power below the least one with 53 bits has 52 bits.
  obtain ⟨n, hn, hdouble⟩ : ∃ n : ℕ, 0 < 2 ^ n ∧ IsDouble (2 ^ n) (k - n) := by
    rcases hlow.eq_or_lt with rfl | hlow
    · exact ⟨51, by decide, by decide, by decide, by decide, .inr rfl⟩
    · exact ⟨52, by decide, by decide, by omega, by omega, .inl le_rfl⟩
  rw [two_zpow_eq_mul n] at h ⊢
  rw [h.eq_of_isDouble .positive hn hdouble]
  exact holds_pack hn hdouble

theorem pack_of_large (sign : Sign) {m : ℕ} {e : ℤ} (hm : 0 < m) (he : 972 ≤ e) :
    Float.Model.pack (.finite sign m e hm) = Float.Model.pack (.infinity sign) := by
  have hfield : 2 ^ Format.binary64.exponentBits ≤ (e + Format.binary64.exponentBias +
      Format.binary64.mantissaBitsWithoutImplicit).toNat + 1 := by
    show 2048 ≤ (e + 1023 + 52).toNat + 1
    omega
  have hword : UnpackedFloat.pack Format.binary64 (.finite sign m e hm) =
      UnpackedFloat.pack Format.binary64 (.infinity sign) := if_pos hfield
  rw [Float.Model.pack, Float.Model.pack, Float.Model.mk.injEq, hword]

/-- Past the doubles a value is rounded to infinity. -/
theorem Rounds.infinite {x : ℚ} {q : ℕ} {e : ℤ} (h : Rounds x q e) (hx : 2 ^ (1024 : ℤ) ≤ x) :
    (Float.Model.pack (finish .positive q e)).unpack = .infinity .positive := by
  have he : 972 ≤ e := by
    by_contra hlt
    have hunits : (2 : ℚ) ^ (53 : ℤ) ≤ x / 2 ^ e := by
      rw [le_div_iff₀ (two_zpow_pos e), ← zpow_add₀ two_ne_zero]
      exact (zpow_le_zpow_right₀ one_le_two (by omega)).trans hx
    exact absurd h.below (not_lt.mpr hunits)
  have hq : q ≠ 0 := by
    have := h.full_mantissa.resolve_left (by omega)
    omega
  have hpack :
      Float.Model.pack (finish .positive q e) = Float.Model.pack (.infinity .positive) := by
    rw [finish, dif_neg hq]
    by_cases hlt : q < 2 ^ 53
    · rw [if_pos hlt]
      exact pack_of_large _ _ he
    · rw [if_neg hlt]
      exact pack_of_large _ _ (by omega)
  rw [hpack]
  rfl

/-! ## Products and reciprocals -/

section Operations

variable {x y : Float} {i j : ℕ}

theorem unpack_mul (x y : Float) : (x * y).toModel.unpack = (Float.Model.pack
    (UnpackedFloat.mul Format.binary64 x.toModel.unpack y.toModel.unpack)).unpack :=
  rfl

theorem unpack_div (x y : Float) : (x / y).toModel.unpack = (Float.Model.pack
    (UnpackedFloat.div Format.binary64 x.toModel.unpack y.toModel.unpack)).unpack :=
  rfl

theorem isTwoPower_natCast (hholds : i ≤ 1023 → Holds x (2 ^ (i : ℤ)))
    (hinfinite : 1023 < i → x.toModel.unpack = .infinity .positive) : IsTwoPower x i :=
  ⟨fun _ h => hholds (by omega), fun h => hinfinite (by omega), fun h => by omega⟩

theorem isTwoPower_of_infinite {k : ℤ} (hk : 1023 < k)
    (h : x.toModel.unpack = .infinity .positive) : IsTwoPower x k :=
  ⟨fun _ _ => by omega, fun _ => h, fun _ => by omega⟩

/-- A power with a natural exponent is a double or infinite. -/
theorem IsTwoPower.cases (h : IsTwoPower x i) :
    (i ≤ 1023 ∧ Holds x (2 ^ (i : ℤ))) ∨ (1023 < i ∧ x.toModel.unpack = .infinity .positive) := by
  rcases Nat.lt_or_ge 1023 i with hi | hi
  · exact .inr ⟨hi, h.infinite (by omega)⟩
  · exact .inl ⟨hi, h.holds (by omega) (by omega)⟩

/-- The product of two powers is the power with the sum of the exponents. -/
theorem IsTwoPower.mul (hx : IsTwoPower x i) (hy : IsTwoPower y j) :
    IsTwoPower (x * y) ((i + j : ℕ) : ℤ) := by
  rcases hx.cases with ⟨hi, hx⟩ | ⟨hi, hx⟩ <;> rcases hy.cases with ⟨hj, hy⟩ | ⟨hj, hy⟩
  · obtain ⟨q, e, hrounds, hmul⟩ := hx.mul_rounds hy
    rw [← zpow_add₀ two_ne_zero, ← Nat.cast_add] at hrounds
    rw [hmul]
    exact isTwoPower_natCast (fun hle => hrounds.holds_two_zpow (by omega) (by omega))
      fun hlt => hrounds.infinite (zpow_le_zpow_right₀ one_le_two (by omega))
  · obtain ⟨m, e, hm, hx, -⟩ := hx
    refine isTwoPower_of_infinite (by omega) ?_
    rw [unpack_mul, hx, hy]
    show (Float.Model.pack (.infinity .positive)).unpack = _
    rfl
  · obtain ⟨m, e, hm, hy, -⟩ := hy
    refine isTwoPower_of_infinite (by omega) ?_
    rw [unpack_mul, hx, hy]
    show (Float.Model.pack (.infinity .positive)).unpack = _
    rfl
  · refine isTwoPower_of_infinite (by omega) ?_
    rw [unpack_mul, hx, hy]
    show (Float.Model.pack (.infinity .positive)).unpack = _
    rfl

theorem isTwoPower_one : IsTwoPower 1 (0 : ℕ) := by
  refine isTwoPower_natCast (fun _ => ?_) fun h => by omega
  rw [two_zpow_eq_mul 52]
  exact holds_of_magnitude (by decide +kernel) (by decide +kernel)

theorem isTwoPower_two : IsTwoPower 2 (1 : ℕ) := by
  refine isTwoPower_natCast (fun _ => ?_) fun h => by omega
  rw [two_zpow_eq_mul 52]
  exact holds_of_magnitude (by decide +kernel) (by decide +kernel)

/-- The reciprocal of a power is the power with the opposite exponent. -/
theorem IsTwoPower.one_div (hx : IsTwoPower x i) : IsTwoPower (1 / x) (-i) := by
  have hone : Holds 1 (2 ^ ((0 : ℕ) : ℤ)) := isTwoPower_one.holds (by omega) (by omega)
  rcases hx.cases with ⟨hi, hx⟩ | ⟨hi, hx⟩
  · obtain ⟨q, e, hrounds, hdiv⟩ := hone.div_rounds hx
    rw [← zpow_sub₀ two_ne_zero, Nat.cast_zero, zero_sub] at hrounds
    rw [hdiv]
    exact ⟨hrounds.holds_two_zpow, fun h => by omega, fun h => by omega⟩
  · obtain ⟨m, e, hm, hone, -⟩ := hone
    refine ⟨fun h => by omega, fun h => by omega, fun _ => ?_⟩
    rw [unpack_div, hone, hx]
    show (Float.Model.pack (.zero .positive)).unpack = _
    rfl

/-- The product of two powers in the range is exact. -/
theorem Holds.mul_two_zpow {i j : ℤ} (hx : Holds x (2 ^ i)) (hy : Holds y (2 ^ j))
    (hlow : -1023 ≤ i + j) (hhigh : i + j ≤ 1023) : Holds (x * y) (2 ^ (i + j)) := by
  obtain ⟨q, e, hrounds, hmul⟩ := hx.mul_rounds hy
  rw [← zpow_add₀ two_ne_zero] at hrounds
  rw [hmul]
  exact hrounds.holds_two_zpow hlow hhigh

/-- A value is that of at most one double. -/
theorem Holds.unique {v : ℚ} (hx : Holds x v) (hy : Holds y v) : x = y := by
  -- Both are what their value is rounded to, and a product with one is rounded.
  obtain ⟨q, e, hrounds, -⟩ := hx.mul_rounds (isTwoPower_one.holds (by omega) (by omega))
  rw [Nat.cast_zero, zpow_zero, mul_one] at hrounds
  obtain ⟨m, k, hm, hunpack, hdouble, rfl⟩ := hx
  obtain ⟨m', k', hm', hunpack', hdouble', hvalue⟩ := hy
  have hfinish := hrounds.eq_of_isDouble .positive hm hdouble
  have hfinish' := (hvalue ▸ hrounds).eq_of_isDouble .positive hm' hdouble'
  cases hfinish.symm.trans hfinish'
  exact eq_of_unpack_eq hunpack hunpack'

end Operations

/-- Repeated squaring. -/
theorem isTwoPower_power (n : ℕ) : IsTwoPower (Scalar.power 2 n) n := by
  induction n using Nat.strong_induction_on with
  | _ n ih =>
    rw [Scalar.power]
    by_cases hzero : n = 0
    · rw [if_pos hzero, hzero]
      exact isTwoPower_one
    rw [if_neg hzero]
    have hroot := ih (n / 2) (by omega)
    by_cases heven : n % 2 = 0
    · have hhalves : n / 2 + n / 2 = n := by omega
      simpa only [heven, if_true, hhalves] using hroot.mul hroot
    · have hhalves : n / 2 + n / 2 + 1 = n := by omega
      simpa only [heven, if_false, hhalves] using (hroot.mul hroot).mul isTwoPower_two

/-- Powers of two with whole exponents. -/
theorem isTwoPower_powerInt (k : ℤ) : IsTwoPower (Scalar.powerInt 2 k) k := by
  have hpower := isTwoPower_power k.natAbs
  rw [Scalar.powerInt]
  split
  · have hk : -(k.natAbs : ℤ) = k := by omega
    have hreciprocal := hpower.one_div
    rwa [hk] at hreciprocal
  · have hk : (k.natAbs : ℤ) = k := by omega
    rwa [hk] at hpower

/-- Repeated squaring of one half. -/
theorem holds_power_half {n : ℕ} (hn : n ≤ 1023) :
    Holds (Scalar.power (1 / 2) n) (2 ^ (-(n : ℤ))) := by
  induction n using Nat.strong_induction_on with
  | _ n ih =>
    rw [Scalar.power]
    by_cases hzero : n = 0
    · subst hzero
      exact isTwoPower_one.holds (by omega) (by omega)
    rw [if_neg hzero]
    have hroot := ih (n / 2) (by omega) (by omega)
    have hsquare := hroot.mul_two_zpow hroot (by omega) (by omega)
    by_cases heven : n % 2 = 0
    · have hhalves : -((n / 2 : ℕ) : ℤ) + -((n / 2 : ℕ) : ℤ) = -n := by omega
      simpa only [heven, if_true, hhalves] using hsquare
    · have hhalves : -((n / 2 : ℕ) : ℤ) + -((n / 2 : ℕ) : ℤ) + -((1 : ℕ) : ℤ) = -n := by omega
      have hhalf : Holds (1 / 2) (2 ^ (-((1 : ℕ) : ℤ))) :=
        isTwoPower_two.one_div.holds (by omega) (by omega)
      have hproduct := hsquare.mul_two_zpow hhalf (by omega) (by omega)
      simpa only [heven, if_false, hhalves] using hproduct

/-- Powers of one half with natural exponents. -/
theorem holds_powerInt_half {n : ℕ} (hn : n ≤ 1023) :
    Holds (Scalar.powerInt (1 / 2) n) ((1 / 2) ^ n) := by
  have hvalue : (1 / 2 : ℚ) ^ n = 2 ^ (-(n : ℤ)) := by
    rw [one_div, inv_pow, zpow_neg, zpow_natCast]
  rw [Scalar.powerInt, if_neg (by omega), Int.natAbs_natCast, hvalue]
  exact holds_power_half hn

end Cubature.Decimal
