import Cubature.Proofs.Decimal.Arithmetic

/-!
# A decimal that is read

`Decimal.scale` rounds the significand, the powers of ten and the result of each step. For a decimal
between the least double and a little below the greatest one none of this vanishes or overflows, and
the errors add up to a few half units (`holds_scale`).

* `Close`: a number is off by a few parts in `2 ^ 53`; errors of operands add up (`Close.mul`,
  `Close.div`).
* `near_of_near`: another rounding adds another half unit.
-/

namespace Cubature.Decimal

open Float.Model Float.Model.UnpackedFloat

/-! ## Tests on positive numbers -/

theorem Holds.not_isInf {x : Float} {v : ℚ} (h : Holds x v) : x.isInf = false := by
  obtain ⟨m, e, hm, hunpack, -⟩ := h
  show x.toModel.unpack.isInf = false
  rw [hunpack]
  rfl

theorem Holds.not_zero {x : Float} {v : ℚ} (h : Holds x v) : (x == 0.0) = false := by
  obtain ⟨m, e, hm, hunpack, -⟩ := h
  show x.toModel.unpack.beq (0.0 : Float).toModel.unpack = false
  rw [hunpack, unpack_zero]
  rfl

/-! ## Bounds -/

/-- The distance of the doubles around one. -/
def epsilon : ℚ := 2 ^ (-53 : ℤ)

theorem epsilon_pos : 0 < epsilon := two_zpow_pos _

theorem epsilon_lt : epsilon < 1 / 2 ^ 50 := by
  rw [epsilon]
  norm_num

theorem halfUnit_pos (x : ℚ) : 0 < halfUnit x := lt_max_of_lt_right (two_zpow_pos _)

theorem mul_epsilon_le_halfUnit (x : ℚ) : x * epsilon ≤ halfUnit x := le_max_left _ _

/-- Half a unit grows slowly. -/
theorem halfUnit_add_le {x h : ℚ} (hh : 0 ≤ h) : halfUnit (x + h) ≤ halfUnit x + h * epsilon := by
  have hmul := mul_epsilon_le_halfUnit x
  have hterm : 0 ≤ h * epsilon := mul_nonneg hh epsilon_pos.le
  refine max_le ?_ (le_add_of_le_of_nonneg (le_max_right _ _) hterm)
  rw [add_mul]
  exact add_le_add_left hmul _

/-- Half units of a number that is near a value are a little more than those of the value. -/
theorem near_of_near {u w x k l : ℚ} (hk : 0 ≤ k) (hk' : k ≤ 8) (hl : 0 ≤ l)
    (hw : |w - x| ≤ k * halfUnit x) (hu : |u - w| ≤ l * halfUnit w) :
    |u - x| ≤ (k + l * (1 + 1 / 100)) * halfUnit x := by
  have hpos := halfUnit_pos x
  have hsmall := epsilon_lt
  have hmore : w ≤ x + k * halfUnit x := by linarith [(abs_le.mp hw).2]
  have hlittle : k * epsilon ≤ 1 / 100 := by
    calc k * epsilon ≤ 8 * (1 / 2 ^ 50) := mul_le_mul hk' hsmall.le epsilon_pos.le (by norm_num)
      _ ≤ 1 / 100 := by norm_num
  have hunit : halfUnit w ≤ (1 + 1 / 100) * halfUnit x := by
    calc halfUnit w ≤ halfUnit (x + k * halfUnit x) :=
          max_le_max (mul_le_mul_of_nonneg_right hmore epsilon_pos.le) le_rfl
      _ ≤ halfUnit x + k * halfUnit x * epsilon := halfUnit_add_le (mul_nonneg hk hpos.le)
      _ = (1 + k * epsilon) * halfUnit x := by ring
      _ ≤ (1 + 1 / 100) * halfUnit x := mul_le_mul_of_nonneg_right (by linarith) hpos.le
  calc |u - x| = |(u - w) + (w - x)| := by ring_nf
    _ ≤ |u - w| + |w - x| := abs_add_le _ _
    _ ≤ l * ((1 + 1 / 100) * halfUnit x) + k * halfUnit x :=
        add_le_add (hu.trans (mul_le_mul_of_nonneg_left hunit hl)) hw
    _ = (k + l * (1 + 1 / 100)) * halfUnit x := by ring

/-- The number is off by at most `k` parts in `2 ^ 53`. -/
structure Close (k a x : ℚ) : Prop where
  low : x * (1 - k * epsilon) ≤ a
  high : a ≤ x * (1 + k * epsilon)

/-- A rounded value that is at least one is off by one part. -/
theorem close_of_halfUnit {v x : ℚ} (h : |v - x| ≤ halfUnit x) (hx : 1 ≤ x) : Close 1 v x := by
  have hunit : halfUnit x = x * epsilon := by
    refine max_eq_left ?_
    calc (2 : ℚ) ^ (-1075 : ℤ) ≤ 2 ^ (-53 : ℤ) := zpow_le_zpow_right₀ one_le_two (by decide)
      _ ≤ x * 2 ^ (-53 : ℤ) := le_mul_of_one_le_left (two_zpow_pos _).le hx
  rw [hunit, abs_le] at h
  constructor <;> linarith

theorem Close.near {k a x : ℚ} (h : Close k a x) (hk : 0 ≤ k) : |a - x| ≤ k * halfUnit x := by
  have hmul := mul_le_mul_of_nonneg_left (mul_epsilon_le_halfUnit x) hk
  obtain ⟨hlow, hhigh⟩ := h
  rw [abs_le]
  constructor <;> linarith

section Close

variable {k l a b x y : ℚ} (h : Close k a x) (h' : Close l b y) (hk : 0 ≤ k) (hk' : k ≤ 8)
  (hl : 0 ≤ l) (hl' : l ≤ 8) (hx : 0 < x) (hy : 0 < y)

include hk' in
private theorem mul_epsilon_lt : k * epsilon < 1 / 10000 := by
  have hsmall := epsilon_lt
  have hle : k * epsilon ≤ 8 * epsilon := mul_le_mul_of_nonneg_right hk' epsilon_pos.le
  norm_num at hsmall
  linarith

include h hk hk' hx in
/-- Bounds that are enough where neither end of the range is near. -/
theorem Close.crude : x * (7 / 8) ≤ a ∧ a ≤ x * (9 / 8) := by
  have hksmall := mul_epsilon_lt hk'
  have hkpos := mul_nonneg hk epsilon_pos.le
  obtain ⟨hlow, hhigh⟩ := h
  constructor <;> nlinarith

include h h' hk hk' hl hl' hx hy

/-- The errors of two factors add up. -/
theorem Close.mul : Close (k + l + 1 / 100) (a * b) (x * y) := by
  have hpos := epsilon_pos
  have hkpos := mul_nonneg hk hpos.le
  have hlpos := mul_nonneg hl hpos.le
  have hksmall := mul_epsilon_lt hk'
  have hlsmall := mul_epsilon_lt hl'
  have hlow : 0 < x * (1 - k * epsilon) := mul_pos hx (by linarith)
  have hlow' : 0 < y * (1 - l * epsilon) := mul_pos hy (by linarith)
  constructor
  · calc x * y * (1 - (k + l + 1 / 100) * epsilon)
        ≤ x * y * ((1 - k * epsilon) * (1 - l * epsilon)) :=
          mul_le_mul_of_nonneg_left (by nlinarith) (mul_pos hx hy).le
      _ = x * (1 - k * epsilon) * (y * (1 - l * epsilon)) := by ring
      _ ≤ a * b := mul_le_mul h.low h'.low hlow'.le (hlow.trans_le h.low).le
  · calc a * b ≤ x * (1 + k * epsilon) * (y * (1 + l * epsilon)) :=
          mul_le_mul h.high h'.high (hlow'.trans_le h'.low).le
            (mul_nonneg hx.le (by linarith))
      _ = x * y * ((1 + k * epsilon) * (1 + l * epsilon)) := by ring
      _ ≤ x * y * (1 + (k + l + 1 / 100) * epsilon) :=
          mul_le_mul_of_nonneg_left (by nlinarith) (mul_pos hx hy).le

/-- The errors of a dividend and a divisor add up. -/
theorem Close.div : Close (k + l + 1 / 100) (a / b) (x / y) := by
  have hpos := epsilon_pos
  have hkpos := mul_nonneg hk hpos.le
  have hlpos := mul_nonneg hl hpos.le
  have hksmall := mul_epsilon_lt hk'
  have hlsmall := mul_epsilon_lt hl'
  have hlow' : 0 < y * (1 - l * epsilon) := mul_pos hy (by linarith)
  have hb : 0 < b := hlow'.trans_le h'.low
  have hsmall : epsilon < 1 / 10000 := by
    have := epsilon_lt
    norm_num at this
    linarith
  have hcross : (k + l + 1 / 100) * epsilon * (l * epsilon) ≤ 1 / 100 * epsilon := by
    calc (k + l + 1 / 100) * epsilon * (l * epsilon) ≤ 17 * epsilon * (1 / 10000) :=
          mul_le_mul (mul_le_mul_of_nonneg_right (by linarith) hpos.le) hlsmall.le hlpos
            (by linarith)
      _ ≤ 1 / 100 * epsilon := by linarith
  constructor
  · rw [div_mul_eq_mul_div, div_le_div_iff₀ hy hb]
    calc x * (1 - (k + l + 1 / 100) * epsilon) * b
        ≤ x * (1 - (k + l + 1 / 100) * epsilon) * (y * (1 + l * epsilon)) :=
          mul_le_mul_of_nonneg_left h'.high (mul_nonneg hx.le (by linarith))
      _ = x * y * ((1 - (k + l + 1 / 100) * epsilon) * (1 + l * epsilon)) := by ring
      _ ≤ x * y * (1 - k * epsilon) :=
          mul_le_mul_of_nonneg_left (by nlinarith) (mul_pos hx hy).le
      _ = x * (1 - k * epsilon) * y := by ring
      _ ≤ a * y := mul_le_mul_of_nonneg_right h.low hy.le
  · rw [div_mul_eq_mul_div, div_le_div_iff₀ hb hy]
    calc a * y ≤ x * (1 + k * epsilon) * y := mul_le_mul_of_nonneg_right h.high hy.le
      _ = x * y * (1 + k * epsilon) := by ring
      _ ≤ x * y * ((1 + (k + l + 1 / 100) * epsilon) * (1 - l * epsilon)) :=
          mul_le_mul_of_nonneg_left (by linarith) (mul_pos hx hy).le
      _ = x * (1 + (k + l + 1 / 100) * epsilon) * (y * (1 - l * epsilon)) := by ring
      _ ≤ x * (1 + (k + l + 1 / 100) * epsilon) * b :=
          mul_le_mul_of_nonneg_left h'.low (mul_nonneg hx.le (by linarith))

end Close

theorem overflow_eq : overflow = ((2 ^ 54 - 1) * 2 ^ 970 : ℕ) := by
  have hpow : (2 : ℚ) ^ (971 : ℤ) = 2 * 2 ^ 970 := by
    rw [show (971 : ℤ) = ((970 : ℕ) : ℤ) + 1 by rfl, zpow_add_one₀ two_ne_zero, zpow_natCast,
      mul_comm]
  rw [overflow, hpow, Nat.cast_mul, Nat.cast_pow 2 970, Nat.cast_ofNat]
  generalize (2 : ℚ) ^ 970 = unit
  norm_num
  ring

theorem holds_ofNat {n : ℕ} (hn : 0 < n) (hlt : n < 2 ^ 64) :
    ∃ v, Holds (Float.ofNat n) v ∧ Close 1 v n := by
  have hhigh : (n : ℚ) * 10 ^ 0 < overflow := by
    rw [overflow_eq, pow_zero, mul_one, Nat.cast_lt]
    exact hlt.trans (by decide +kernel)
  obtain ⟨v, hv, hnear⟩ := holds_ofScientific hn (Nat.zero_le _) hhigh
  rw [pow_zero, mul_one] at hnear
  exact ⟨v, hv, close_of_halfUnit hnear (by exact_mod_cast hn)⟩

theorem holds_powerOfTen {k : ℕ} (hk : k ≤ 308) :
    ∃ v, Holds (powerOfTen k) v ∧ Close 1 v (10 ^ k) := by
  have hhigh : ((1 : ℕ) : ℚ) * 10 ^ k < overflow := by
    have hlt : 10 ^ k < (2 ^ 54 - 1) * 2 ^ 970 :=
      lt_of_le_of_lt (Nat.pow_le_pow_right (by decide) hk) (by decide +kernel)
    rw [overflow_eq, Nat.cast_one, one_mul]
    exact_mod_cast hlt
  obtain ⟨v, hv, hnear⟩ := holds_ofScientific one_pos (hk.trans (by decide)) hhigh
  rw [Nat.cast_one, one_mul] at hnear
  exact ⟨v, hv, close_of_halfUnit hnear (one_le_pow₀ (by norm_num))⟩

/-! ## Steps -/

theorem scaleSteps_mul {f : Float} {k : ℕ} (hk : k ≤ greatestPower) (steps : ℕ)
    (h : (f * powerOfTen k).isInf = false) :
    scaleSteps f k (steps + 1) = some (f * powerOfTen k) := by
  rw [scaleSteps, Int.natAbs_natCast, if_pos hk, if_neg (by omega)]
  simp only [h, Bool.false_eq_true, if_false]

theorem scaleSteps_div {f : Float} {k : ℕ} (hpos : 0 < k) (hk : k ≤ greatestPower) (steps : ℕ) :
    scaleSteps f (-k) (steps + 1) = some (f / powerOfTen k) := by
  rw [scaleSteps, Int.natAbs_neg, Int.natAbs_natCast, if_pos hk, if_pos (by omega)]

theorem scaleSteps_far {f : Float} {k : ℕ} (hpos : 0 < k) (steps : ℕ) (h : (f == 0.0) = false) :
    scaleSteps f (-(308 + k : ℕ)) (steps + 1) = scaleSteps (f / powerOfTen 308) (-k) steps := by
  have hfar : ¬308 + k ≤ greatestPower := by
    show ¬308 + k ≤ 308
    omega
  have hrest : -((308 + k : ℕ) : ℤ) + greatestPower = -k := by
    show -((308 + k : ℕ) : ℤ) + 308 = -k
    omega
  rw [scaleSteps, Int.natAbs_neg, Int.natAbs_natCast, if_neg hfar]
  simp only [h, Bool.false_eq_true, if_false]
  rw [if_pos (by omega), hrest]
  rfl

section Scale

variable {D k : ℕ}

/-- What lies below the overflow by more than the error of two factors. -/
theorem mul_lt_overflow {x a b : ℚ} (ha : Close 1 a D) (hb : Close 1 b (10 ^ k)) (hpos : 0 < b)
    (hx : (D : ℚ) * 10 ^ k = x) (hhigh : x ≤ (2 ^ 53 - 5 / 2) * 2 ^ (971 : ℤ)) :
    a * b < overflow := by
  have hunit := two_zpow_pos 971
  have herror : (2 ^ 53 - 5 / 2) * ((1 + 1 * epsilon) * (1 + 1 * epsilon)) < 2 ^ 53 - 1 / 2 := by
    rw [epsilon]
    norm_num
  rw [overflow]
  generalize (2 : ℚ) ^ (971 : ℤ) = unit at hunit hhigh ⊢
  have hfactor : 0 < (1 + 1 * epsilon) * (1 + 1 * epsilon) := by
    have := epsilon_pos
    positivity
  calc a * b ≤ D * (1 + 1 * epsilon) * (10 ^ k * (1 + 1 * epsilon)) := by
        refine mul_le_mul ha.high hb.high hpos.le ?_
        have := epsilon_pos
        positivity
    _ = x * ((1 + 1 * epsilon) * (1 + 1 * epsilon)) := by
        rw [← hx]
        ring
    _ ≤ (2 ^ 53 - 5 / 2) * unit * ((1 + 1 * epsilon) * (1 + 1 * epsilon)) :=
        mul_le_mul_of_nonneg_right hhigh hfactor.le
    _ = (2 ^ 53 - 5 / 2) * ((1 + 1 * epsilon) * (1 + 1 * epsilon)) * unit := by ring
    _ < (2 ^ 53 - 1 / 2) * unit := mul_lt_mul_of_pos_right herror hunit

/-- A decimal is read as a positive number that is less than six half units away. -/
def Reads (D : ℕ) (E : ℤ) : Prop :=
  ∃ f v, scale D E = some f ∧ Holds f v ∧ |v - D * 10 ^ E| ≤ 11 / 2 * halfUnit (D * 10 ^ E)

/-- What a last rounding makes of a quotient or a product that is near the decimal. -/
theorem reads_of_near {E : ℤ} {f : Float} {u w c : ℚ} (hscale : scale D E = some f)
    (hu : Holds f u) (hc : 0 ≤ c) (hc' : c ≤ 449 / 100)
    (hw : |w - D * 10 ^ E| ≤ c * halfUnit (D * 10 ^ E)) (hnear : |u - w| ≤ halfUnit w) :
    Reads D E := by
  rw [← one_mul (halfUnit w)] at hnear
  refine ⟨f, u, hscale, hu, (near_of_near hc (by linarith) one_pos.le hw hnear).trans ?_⟩
  exact mul_le_mul_of_nonneg_right (by linarith) (halfUnit_pos _).le

/-- A significand that is multiplied by a power of ten. -/
theorem holds_scale_mul (hD : 0 < D) (hlt : D < 2 ^ 64) (hk : k ≤ 308)
    (hhigh : (D : ℚ) * 10 ^ k ≤ (2 ^ 53 - 5 / 2) * 2 ^ (971 : ℤ)) : Reads D k := by
  obtain ⟨a, ha, hclosea⟩ := holds_ofNat hD hlt
  obtain ⟨b, hb, hcloseb⟩ := holds_powerOfTen hk
  have hone : (1 : ℚ) ≤ D := by exact_mod_cast hD
  have hpow : (1 : ℚ) ≤ 10 ^ k := one_le_pow₀ (by norm_num)
  have hclose := hclosea.mul hcloseb (by norm_num) (by norm_num) (by norm_num) (by norm_num)
    (by linarith) (by linarith)
  have hlow : (2 : ℚ) ^ (-1075 : ℤ) < a * b := by
    obtain ⟨hlowa, -⟩ := hclosea.crude (by norm_num) (by norm_num) (by linarith)
    obtain ⟨hlowb, -⟩ := hcloseb.crude (by norm_num) (by norm_num) (by linarith)
    calc (2 : ℚ) ^ (-1075 : ℤ) ≤ 2 ^ (-3 : ℤ) := zpow_le_zpow_right₀ one_le_two (by decide)
      _ < 1 / 2 * (1 / 2) := by norm_num
      _ ≤ a * b := mul_le_mul (by linarith) (by linarith) (by norm_num) ha.pos.le
  obtain ⟨u, hu, hnear⟩ := ha.mul hb hlow (mul_lt_overflow hclosea hcloseb hb.pos rfl hhigh)
  have hw := hclose.near (by norm_num)
  rw [← zpow_natCast] at hw
  exact reads_of_near (scaleSteps_mul hk _ hu.not_isInf) hu (by norm_num) (by norm_num) hw hnear

theorem lt_overflow {x : ℚ} (hx : x ≤ 2 ^ 70) : x < overflow := by
  refine lt_of_le_of_lt hx ?_
  rw [overflow_eq]
  have hlt : 2 ^ 70 < (2 ^ 54 - 1) * 2 ^ 970 := by decide +kernel
  exact_mod_cast hlt

/-- The quotient of a word and a power of ten, as they are read. It is far above the least double
and far below the greatest. -/
theorem holds_operands (hD : 0 < D) (hlt : D < 2 ^ 64) (hk : k ≤ 308) :
    ∃ a b, Holds (Float.ofNat D) a ∧ Holds (powerOfTen k) b ∧
      Close (1 + 1 + 1 / 100) (a / b) (D / 10 ^ k) ∧
      (2 : ℚ) ^ (-1025 : ℤ) ≤ a / b ∧ a / b ≤ 2 ^ 65 := by
  obtain ⟨a, ha, hclosea⟩ := holds_ofNat hD hlt
  obtain ⟨b, hb, hcloseb⟩ := holds_powerOfTen hk
  have hone : (1 : ℚ) ≤ D := by exact_mod_cast hD
  have hword : (D : ℚ) ≤ 2 ^ 64 := by exact_mod_cast hlt.le
  have hpow : (1 : ℚ) ≤ 10 ^ k := one_le_pow₀ (by norm_num)
  have hlarge : (10 : ℚ) ^ k ≤ 2 ^ (1024 : ℤ) := by
    have : 10 ^ k ≤ 2 ^ 1024 :=
      le_trans (Nat.pow_le_pow_right (by decide) hk) (by decide +kernel)
    exact_mod_cast this
  have hclose := hclosea.div hcloseb (by norm_num) (by norm_num) (by norm_num) (by norm_num)
    (by linarith) (by linarith)
  obtain ⟨hlow, hhigh⟩ := hclose.crude (by norm_num) (by norm_num) (div_pos (by linarith)
    (by linarith))
  have hleast : (2 : ℚ) ^ (-1024 : ℤ) ≤ D / 10 ^ k := by
    rw [le_div_iff₀ (by linarith), zpow_neg, ← div_eq_inv_mul, div_le_iff₀ (two_zpow_pos _)]
    exact hlarge.trans (le_mul_of_one_le_left (two_zpow_pos 1024).le hone)
  have hgreatest : (D : ℚ) / 10 ^ k ≤ 2 ^ 64 := by
    rw [div_le_iff₀ (by linarith)]
    nlinarith
  refine ⟨a, b, ha, hb, hclose, ?_, by linarith⟩
  rw [show (-1025 : ℤ) = -1024 - 1 by rfl, zpow_sub_one₀ two_ne_zero]
  have := two_zpow_pos (-1024)
  generalize (2 : ℚ) ^ (-1024 : ℤ) = unit at *
  linarith

/-- A significand that is divided by a power of ten. -/
theorem holds_scale_div (hD : 0 < D) (hlt : D < 2 ^ 64) (hpos : 0 < k) (hk : k ≤ 308) :
    Reads D (-k) := by
  obtain ⟨a, b, ha, hb, hclose, hleast, hgreatest⟩ := holds_operands hD hlt hk
  have hlow : (2 : ℚ) ^ (-1075 : ℤ) < a / b :=
    lt_of_lt_of_le (zpow_lt_zpow_right₀ one_lt_two (by decide)) hleast
  obtain ⟨u, hu, hnear⟩ := ha.div hb hlow (lt_overflow (by linarith))
  have hw := hclose.near (by norm_num)
  rw [div_eq_mul_inv (D : ℚ), ← zpow_natCast, ← zpow_neg] at hw
  exact reads_of_near (scaleSteps_div hpos hk _) hu (by norm_num) (by norm_num) hw hnear

/-- Half a unit loses more in a division than the number. -/
theorem halfUnit_div_le {w d : ℚ} (hd : 1 ≤ d) : halfUnit w / d ≤ halfUnit (w / d) := by
  have hpos : 0 < d := by linarith
  rw [halfUnit, ← max_div_div_right hpos.le, halfUnit]
  exact max_le_max (le_of_eq (by ring)) (div_le_self (two_zpow_pos _).le hd)

/-- Far above the least double, half a unit is little of the value. -/
theorem halfUnit_le_eighth {v : ℚ} (h : (2 : ℚ) ^ (-1025 : ℤ) ≤ v) : halfUnit v ≤ v * (1 / 8) := by
  have hpos : 0 < v := (two_zpow_pos _).trans_le h
  refine max_le (mul_le_mul_of_nonneg_left (by norm_num) hpos.le) ?_
  calc (2 : ℚ) ^ (-1075 : ℤ) ≤ 2 ^ (-1025 - 3 : ℤ) := zpow_le_zpow_right₀ one_le_two (by decide)
    _ = 2 ^ (-1025 : ℤ) * (1 / 8) := by
        rw [zpow_sub₀ two_ne_zero, div_eq_mul_one_div]
        norm_num
    _ ≤ v * (1 / 8) := mul_le_mul_of_nonneg_right h (by norm_num)

/-- A rounded quotient that is divided once more, far above the least double: the error is divided
with the number. -/
theorem near_div {v c d : ℚ} (hnear : |c - v| ≤ halfUnit v) (hv : (2 : ℚ) ^ (-1025 : ℤ) ≤ v)
    (hd : 1 ≤ d) :
    |c / d - v / d| ≤ halfUnit (v / d) ∧ v / d * (7 / 8) ≤ c / d ∧ c / d ≤ v / d * (9 / 8) := by
  have hpos : 0 < d := by linarith
  have hunit := halfUnit_le_eighth hv
  refine ⟨?_, ?_⟩
  · rw [← sub_div, abs_div, abs_of_pos hpos]
    exact (div_le_div_of_nonneg_right hnear hpos.le).trans (halfUnit_div_le hd)
  · rw [abs_le] at hnear
    rw [div_mul_eq_mul_div v d, div_mul_eq_mul_div v d]
    exact ⟨div_le_div_of_nonneg_right (by linarith) hpos.le,
      div_le_div_of_nonneg_right (by linarith) hpos.le⟩

/-- Far below one, a significand is divided twice. -/
theorem scale_far {j : ℕ} (hpos : 0 < j) (hj : j < 308) (hD : (Float.ofNat D == 0.0) = false) :
    scale D (-(308 + j : ℕ)) = some (Float.ofNat D / powerOfTen 308 / powerOfTen j) := by
  have hsteps : (-((308 + j : ℕ) : ℤ)).natAbs / greatestPower + 1 = 2 := by
    show (-((308 + j : ℕ) : ℤ)).natAbs / 308 + 1 = 2
    omega
  rw [scale, hsteps, scaleSteps_far hpos 1 hD]
  exact scaleSteps_div hpos hj.le 0

/-- A significand that is divided twice. The first quotient is not near the least double, so that it
loses little. -/
theorem holds_scale_far {j : ℕ} (hD : 0 < D) (hlt : D < 2 ^ 64) (hpos : 0 < j) (hj : j < 308)
    (hx : (2 : ℚ) ^ (-1074 : ℤ) ≤ D / 10 ^ 308 / 10 ^ j) : Reads D (-(308 + j : ℕ)) := by
  obtain ⟨a, b, ha, hb, hclose, hleast, hgreatest⟩ := holds_operands hD hlt (le_refl 308)
  have hlow : (2 : ℚ) ^ (-1075 : ℤ) < a / b :=
    lt_of_lt_of_le (zpow_lt_zpow_right₀ one_lt_two (by decide)) hleast
  obtain ⟨c, hc, hnearc⟩ := ha.div hb hlow (lt_overflow (by linarith))
  obtain ⟨d, hd, hclosed⟩ := holds_powerOfTen hj.le
  have hD' : (0 : ℚ) < D := by exact_mod_cast hD
  have hpow : (10 : ℚ) ≤ 10 ^ j := le_self_pow₀ (by norm_num) hpos.ne'
  obtain ⟨hlowd, -⟩ := hclosed.crude (by norm_num) (by norm_num) (by linarith)
  obtain ⟨hnear, hlowcd, hhighcd⟩ := near_div hnearc hleast (by linarith : 1 ≤ d)
  rw [← one_mul (halfUnit _)] at hnear
  have hclosex := hclose.div hclosed (by norm_num) (by norm_num) (by norm_num) (by norm_num)
    (by positivity) (by linarith)
  have hw := near_of_near (by norm_num) (by norm_num) one_pos.le (hclosex.near (by norm_num)) hnear
  obtain ⟨hlowx, hhighx⟩ := hclosex.crude (by norm_num) (by norm_num) (by positivity)
  have hlow' : (2 : ℚ) ^ (-1075 : ℤ) < c / d := by
    have hunit' := two_zpow_pos (-1074)
    rw [show (-1075 : ℤ) = -1074 - 1 by rfl, zpow_sub_one₀ two_ne_zero]
    generalize (2 : ℚ) ^ (-1074 : ℤ) = unit, (D : ℚ) / 10 ^ 308 / 10 ^ j = x at *
    linarith
  have hhigh' : c / d ≤ 2 ^ 70 := by
    have hless : a / b / d ≤ a / b := div_le_self (div_pos ha.pos hb.pos).le (by linarith)
    linarith
  obtain ⟨u, hu, hnearu⟩ := hc.div hd hlow' (lt_overflow hhigh')
  have hvalue : (D : ℚ) / 10 ^ 308 / 10 ^ j = D * 10 ^ (-(308 + j : ℕ) : ℤ) := by
    rw [zpow_neg, zpow_natCast, pow_add, mul_inv, ← mul_assoc, ← div_eq_mul_inv, ← div_eq_mul_inv]
  rw [hvalue] at hw
  exact reads_of_near (scale_far hpos hj ha.not_zero) hu (by norm_num) (by norm_num) hw hnearu

theorem not_le_of_word {word unit power more : ℕ} (hD : D < word) (hunit : 0 < unit)
    (hword : word * unit ≤ power * power) (hmore : power ≤ more) : ¬power * more ≤ D * unit := by
  have hless := Nat.mul_lt_mul_of_pos_right hD hunit
  have hpower := Nat.mul_le_mul_left power hmore
  omega

/-- A decimal between the least double and a little below the greatest one is read as a positive
number. -/
theorem holds_scale {E : ℤ} (hD : 0 < D) (hlt : D < 2 ^ 64)
    (hlow : (2 : ℚ) ^ (-1074 : ℤ) ≤ D * 10 ^ E)
    (hhigh : (D : ℚ) * 10 ^ E ≤ (2 ^ 53 - 5 / 2) * 2 ^ (971 : ℤ)) : Reads D E := by
  have hone : (1 : ℚ) ≤ D := by exact_mod_cast hD
  rcases Int.le_total 0 E with hE | hE
  · obtain ⟨k, rfl⟩ := Int.eq_ofNat_of_zero_le hE
    rw [zpow_natCast] at hhigh
    refine holds_scale_mul hD hlt (not_lt.mp fun hk => ?_) hhigh
    -- A power of ten past the 308th is itself past the largest double.
    have hlarge : ((2 ^ 54 - 1) * 2 ^ 970 : ℕ) < (10 : ℚ) ^ k := by
      have : (2 ^ 54 - 1) * 2 ^ 970 < 10 ^ k :=
        lt_of_lt_of_le (by decide +kernel) (Nat.pow_le_pow_right (by decide) hk)
      exact_mod_cast this
    rw [← overflow_eq, overflow] at hlarge
    have hless : (10 : ℚ) ^ k ≤ D * 10 ^ k := le_mul_of_one_le_left (by positivity) hone
    have hunit := two_zpow_pos 971
    generalize (2 : ℚ) ^ (971 : ℤ) = unit at *
    linarith
  · obtain ⟨k, hk⟩ := Int.eq_ofNat_of_zero_le (Int.neg_nonneg.mpr hE)
    obtain rfl : E = -k := by omega
    by_cases hfar : k ≤ 308
    · rcases Nat.eq_zero_or_pos k with rfl | hpos
      · exact holds_scale_mul hD hlt (Nat.zero_le _) (by simpa using hhigh)
      · exact holds_scale_div hD hlt hpos hfar
    · obtain ⟨j, rfl⟩ := Nat.exists_eq_add_of_le (not_le.mp hfar).le
      rw [zpow_neg (10 : ℚ), zpow_natCast, pow_add, mul_inv, ← mul_assoc, ← div_eq_mul_inv,
        ← div_eq_mul_inv] at hlow
      refine holds_scale_far hD hlt (by omega) (not_le.mp fun hj => ?_) hlow
      -- No word of digits is large enough for an exponent that far down.
      have hless : 10 ^ 308 * 10 ^ j ≤ D * 2 ^ 1074 := by
        rw [div_div, le_div_iff₀ (by positivity), zpow_neg, inv_mul_le_iff₀ (two_zpow_pos _),
          mul_comm (2 ^ (1074 : ℤ))] at hlow
        exact_mod_cast hlow
      exact not_le_of_word hlt (pow_pos two_pos 1074) (by decide +kernel)
        (pow_le_pow_right₀ (by norm_num) hj) hless

end Scale

end Cubature.Decimal
