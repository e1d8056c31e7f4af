import Mathlib.Data.Rat.Floor
import Mathlib.Tactic.Linarith

/-!
# Rounding to a double

`Float` is defined by a model that keeps a mantissa with the two bits below it, shifts it to the
exponent of the result and rounds it there. Here this is said of exact values.

* `Tracks`: what the mantissa and the two bits know of a value, and that shifting keeps it
  (`Tracks.shiftRight`). The rounded mantissa is within a half of the value (`Tracks.near`), and
  even at a tie (`Tracks.even_of_tie`).
* `roundWithAccuracy_eq`: the result is the nearest number of units (`Rounds`). It is a double near
  the value, provided that the value neither overflows nor vanishes (`Rounds.exists_double`), and a
  double is not rounded (`Rounds.eq_of_isDouble`).
-/

namespace Cubature.Decimal

open Float.Model Float.Model.UnpackedFloat

/-! ## Bits below the mantissa -/

/-- The mantissa is the whole part of the value, the first bit tells a half, and the other bit
whether anything else is left. -/
def Tracks (em : ExtendedMantissa) (v : ℚ) : Prop :=
  ∃ rest : ℚ, v = em.mantissa + (if em.roundBit then 1 / 2 else 0) + rest ∧ 0 ≤ rest ∧
    rest < 1 / 2 ∧ (em.stickyBit = true ↔ 0 < rest)

theorem Tracks.exact (m : ℕ) : Tracks (.ofMantissaAndAccuracy m .exact) m :=
  ⟨0, by simp [ExtendedMantissa.ofMantissaAndAccuracy]⟩

/-- The quotient with its remainder. -/
theorem Tracks.quotient (num : ℕ) {den : ℕ} (hden : 0 < den) :
    Tracks (.ofMantissaAndAccuracy (num / den) (accuracyOfFraction (num % den) den))
      (num / den) := by
  have hden' : (0 : ℚ) < den := by exact_mod_cast hden
  have hlt : ((num % den : ℕ) : ℚ) < den := by exact_mod_cast Nat.mod_lt num hden
  have hsplit : (num : ℚ) / den = (num / den : ℕ) + ((num % den : ℕ) : ℚ) / den := by
    rw [eq_comm, ← eq_sub_iff_add_eq', div_eq_iff hden'.ne', sub_mul, div_mul_cancel₀ _ hden'.ne']
    have hdiv : ((den * (num / den) + num % den : ℕ) : ℚ) = num := by rw [Nat.div_add_mod]
    push_cast at hdiv ⊢
    linarith
  generalize num % den = r at hlt hsplit ⊢
  unfold accuracyOfFraction
  split
  case isTrue hzero => exact ⟨0, by simp [ExtendedMantissa.ofMantissaAndAccuracy, hsplit, hzero]⟩
  case isFalse hzero =>
    have hpos : (0 : ℚ) < r := by exact_mod_cast Nat.pos_of_ne_zero hzero
    -- The round bit is a half, and the sticky bit says that something is left besides.
    rcases hcompare : compare (2 * r) den with _ | _ | _
    · have hhalf : (2 : ℚ) * r < den := by exact_mod_cast Nat.compare_eq_lt.mp hcompare
      refine ⟨r / den, by simp [ExtendedMantissa.ofMantissaAndAccuracy, hsplit], by positivity, ?_,
        by simp [ExtendedMantissa.ofMantissaAndAccuracy, hpos, hden']⟩
      rw [div_lt_div_iff₀ hden' two_pos]
      linarith
    · have hhalf : (2 : ℚ) * r = den := by exact_mod_cast Nat.compare_eq_eq.mp hcompare
      refine ⟨0, ?_, le_rfl, by norm_num, by simp [ExtendedMantissa.ofMantissaAndAccuracy]⟩
      simp only [ExtendedMantissa.ofMantissaAndAccuracy, hsplit, if_true, add_zero, add_right_inj]
      rw [div_eq_div_iff hden'.ne' two_ne_zero]
      linarith
    · have hhalf : (den : ℚ) < 2 * r := by exact_mod_cast Nat.compare_eq_gt.mp hcompare
      have hone : (r : ℚ) / den < 1 := (div_lt_one hden').mpr hlt
      have hmore : 1 / 2 < (r : ℚ) / den := by
        rw [div_lt_div_iff₀ two_pos hden']
        linarith
      refine ⟨r / den - 1 / 2, ?_, by linarith, by linarith, ?_⟩
      · simp only [ExtendedMantissa.ofMantissaAndAccuracy, hsplit, if_true]
        ring
      · simp only [ExtendedMantissa.ofMantissaAndAccuracy, true_iff]
        linarith

theorem Tracks.shiftRightOne {em : ExtendedMantissa} {v : ℚ} (h : Tracks em v) :
    Tracks em.shiftRightOne (v / 2) := by
  obtain ⟨m, roundBit, stickyBit⟩ := em
  obtain ⟨rest, rfl, hnonneg, hlt, hsticky⟩ := h
  have hm : (m : ℚ) = 2 * (m / 2 : ℕ) + (m % 2 : ℕ) := by exact_mod_cast (Nat.div_add_mod m 2).symm
  refine ⟨((if roundBit then 1 / 2 else 0) + rest) / 2, ?_, ?_, ?_, ?_⟩
  · rcases Nat.mod_two_eq_zero_or_one m with hbit | hbit <;>
      simp only [ExtendedMantissa.shiftRightOne, hm, hbit] <;> norm_num <;> ring
  · cases roundBit <;> norm_num <;> linarith
  · cases roundBit <;> norm_num <;> linarith
  · cases roundBit
    · simpa [ExtendedMantissa.shiftRightOne] using hsticky
    · simp only [ExtendedMantissa.shiftRightOne, Bool.true_or, if_true, true_iff]
      linarith

theorem Tracks.shiftRight {em : ExtendedMantissa} {v : ℚ} (h : Tracks em v) (k : ℕ) :
    Tracks (em >>> k) (v / 2 ^ k) := by
  change Tracks (k.repeat ExtendedMantissa.shiftRightOne em) _
  induction k with
  | zero => simpa [Nat.repeat] using h
  | succ k ih =>
    rw [Nat.repeat, pow_succ, ← div_div]
    exact ih.shiftRightOne

/-- The mantissa is the whole part. -/
theorem Tracks.floor {em : ExtendedMantissa} {v : ℚ} (h : Tracks em v) :
    em.mantissa ≤ v ∧ v < em.mantissa + 1 := by
  obtain ⟨rest, rfl, hnonneg, hlt, -⟩ := h
  split <;> constructor <;> linarith

/-- The rounded mantissa is one of the two whole numbers nearest to the value. -/
theorem Tracks.near {em : ExtendedMantissa} {v : ℚ} (h : Tracks em v) :
    |(em.roundedMantissa : ℚ) - v| ≤ 1 / 2 := by
  obtain ⟨m, roundBit, stickyBit⟩ := em
  obtain ⟨rest, rfl, hnonneg, hlt, hsticky⟩ := h
  have hbit : (m % 2 : ℕ) = 0 ∨ (m % 2 : ℕ) = 1 := Nat.mod_two_eq_zero_or_one m
  rw [abs_le]
  cases roundBit <;> cases stickyBit <;>
    simp only [ExtendedMantissa.roundedMantissa, ExtendedMantissa.accuracy,
      Accuracy.roundToNearestEven, Bool.false_eq_true, false_iff, not_lt, if_true, if_false,
      true_iff] at hsticky ⊢
  · constructor <;> linarith
  · constructor <;> linarith
  · rcases hbit with hbit | hbit <;> rw [hbit] <;> push_cast <;> constructor <;> linarith
  · push_cast
    constructor <;> linarith

/-- A tie is broken towards the even one. -/
theorem Tracks.even_of_tie {em : ExtendedMantissa} {v : ℚ} (h : Tracks em v)
    (htie : |(em.roundedMantissa : ℚ) - v| = 1 / 2) : em.roundedMantissa % 2 = 0 := by
  obtain ⟨m, roundBit, stickyBit⟩ := em
  obtain ⟨rest, rfl, hnonneg, hlt, hsticky⟩ := h
  rw [abs_eq (by norm_num)] at htie
  cases roundBit <;> cases stickyBit <;>
    simp only [ExtendedMantissa.roundedMantissa, ExtendedMantissa.accuracy,
      Accuracy.roundToNearestEven, Bool.false_eq_true, false_iff, not_lt, if_true, if_false,
      true_iff] at hsticky htie ⊢
  · rcases htie with htie | htie <;> linarith
  · rcases htie with htie | htie <;> linarith
  · omega
  · push_cast at htie
    rcases htie with htie | htie <;> linarith

/-! ## The exponent of the result -/

/-- The mantissa and the exponent of a double: 53 bits, and fewer only at the bottom of the exponent
range. -/
structure IsDouble (m : ℕ) (e : ℤ) : Prop where
  lt : m < 2 ^ 53
  least : -1074 ≤ e
  greatest : e ≤ 971
  full : 2 ^ 52 ≤ m ∨ e = -1074

/-- Values from here on round to infinity. -/
def overflow : ℚ := (2 ^ 53 - 1 / 2) * 2 ^ (971 : ℤ)

/-- Half the distance of the doubles around a value is at most this. -/
def halfUnit (x : ℚ) : ℚ := max (x * 2 ^ (-53 : ℤ)) (2 ^ (-1075 : ℤ))

theorem two_zpow_pos (e : ℤ) : (0 : ℚ) < 2 ^ e := zpow_pos two_pos e

/-- A double has 53 bits, and the last of them counts at least `2 ^ -1074`. -/
theorem targetExponent_binary64 (e : ℤ) :
    Format.binary64.targetExponent e = max (e - 53) (-1074) := rfl

theorem targetExponent_eq (m : ℕ) (e : ℤ) :
    Format.binary64.targetExponent (totalExponent m e) = max (m.log2 + e - 52) (-1074) := by
  rw [targetExponent_binary64, totalExponent]
  omega

/-- The whole number `q` of units `2 ^ e` is nearest to the value, and even if another is as near.
The unit is the right one for 53 bits. -/
structure Rounds (x : ℚ) (q : ℕ) (e : ℤ) : Prop where
  near : |(q : ℚ) - x / 2 ^ e| ≤ 1 / 2
  even : |(q : ℚ) - x / 2 ^ e| = 1 / 2 → q % 2 = 0
  least : -1074 ≤ e
  below : x / 2 ^ e < 2 ^ 53
  full : e = -1074 ∨ 2 ^ 52 ≤ x / 2 ^ e

/-- The first shift brings the value to the right unit. -/
theorem Tracks.rounds {m : ℕ} {e : ℤ} {accuracy : Accuracy} {v : ℚ}
    (h : Tracks (.ofMantissaAndAccuracy m accuracy) v)
    (he : e ≤ Format.binary64.targetExponent (totalExponent m e)) :
    Rounds (v * 2 ^ e)
      (shiftToTargetExponent Format.binary64 m e accuracy).1.roundedMantissa
      (shiftToTargetExponent Format.binary64 m e accuracy).2 := by
  rw [shiftToTargetExponent, shiftToExponent]
  rw [targetExponent_eq] at he ⊢
  generalize htarget : max ((m.log2 : ℤ) + e - 52) (-1074) = target at he
  obtain ⟨k, hk⟩ : ∃ k : ℕ, (target - e).toNat = k := ⟨_, rfl⟩
  have hexponent : e + (k : ℤ) = target := by omega
  have hmantissa : (ExtendedMantissa.ofMantissaAndAccuracy m accuracy).mantissa = m := by
    rcases accuracy with _ | _ | _ | _ <;> rfl
  have hfloor := h.floor
  rw [hmantissa] at hfloor
  have hunits : v * 2 ^ e / 2 ^ (e + (k : ℤ)) = v / 2 ^ k := by
    rw [zpow_add₀ two_ne_zero, zpow_natCast, mul_comm, mul_div_mul_left _ _ (two_zpow_pos e).ne']
  have hpow : (0 : ℚ) < 2 ^ k := pow_pos two_pos k
  rw [hk]
  refine ⟨?near, ?even, ?least, ?below, ?full⟩
  case near =>
    rw [hunits]
    exact (h.shiftRight k).near
  case even =>
    rw [hunits]
    exact (h.shiftRight k).even_of_tie
  case least =>
    show -1074 ≤ e + (k : ℤ)
    omega
  case below =>
    rw [hunits, div_lt_iff₀ hpow, ← pow_add]
    -- The bits past the 53rd are shifted out.
    have hlt : m + 1 ≤ 2 ^ (53 + k) := by
      calc m + 1 ≤ 2 ^ (m.log2 + 1) := Nat.lt_log2_self
        _ ≤ 2 ^ (53 + k) := Nat.pow_le_pow_right two_pos (by omega)
    calc v < m + 1 := hfloor.2
      _ ≤ 2 ^ (53 + k) := by exact_mod_cast hlt
  case full =>
    rw [hunits, le_div_iff₀ hpow, ← pow_add]
    show e + (k : ℤ) = -1074 ∨ _
    -- Only the least unit leaves fewer than 53 bits.
    by_cases hleast : target = -1074
    · exact .inl (by omega)
    · have hlog : m.log2 = 52 + k := by omega
      have hm : m ≠ 0 := by
        rintro rfl
        rw [Nat.log2_zero] at hlog
        omega
      have hle : 2 ^ (52 + k) ≤ m := by
        rw [← hlog]
        exact Nat.log2_self_le hm
      exact .inr (le_trans (by exact_mod_cast hle) hfloor.1)

section Rounds

variable {x : ℚ} {q : ℕ} {e : ℤ}

theorem Rounds.le (h : Rounds x q e) : q ≤ 2 ^ 53 := by
  have hnear := (abs_le.mp h.near).2
  have hlt : (q : ℚ) < (2 ^ 53 + 1 : ℕ) := by
    push_cast
    linarith [h.below]
  exact Nat.lt_succ_iff.mp (by exact_mod_cast hlt)

theorem Rounds.full_mantissa (h : Rounds x q e) : e = -1074 ∨ 2 ^ 52 ≤ q := by
  rcases h.full with he | hfull
  · exact .inl he
  · have hnear := (abs_le.mp h.near).1
    have hlt : ((2 ^ 52 : ℕ) : ℚ) < (q + 1 : ℕ) := by
      push_cast
      linarith
    exact .inr (Nat.lt_succ_iff.mp (by exact_mod_cast hlt))

theorem Rounds.halfUnit_le (h : Rounds x q e) : |(q : ℚ) * 2 ^ e - x| ≤ halfUnit x := by
  have hpos := two_zpow_pos e
  have hscale : (q : ℚ) * 2 ^ e - x = (q - x / 2 ^ e) * 2 ^ e := by
    rw [sub_mul, div_mul_cancel₀ _ hpos.ne']
  have hunit : |(q : ℚ) * 2 ^ e - x| ≤ 2 ^ (e - 1) := by
    rw [hscale, abs_mul, abs_of_pos hpos, zpow_sub_one₀ two_ne_zero]
    nlinarith [h.near]
  refine hunit.trans ?_
  rcases h.full with rfl | hfull
  · exact le_max_right _ _
  · refine le_max_of_le_left ?_
    rw [le_div_iff₀ hpos] at hfull
    calc (2 : ℚ) ^ (e - 1) = 2 ^ (52 : ℕ) * 2 ^ e * 2 ^ (-53 : ℤ) := by
          rw [← zpow_natCast, ← zpow_add₀ two_ne_zero, ← zpow_add₀ two_ne_zero]
          congr 1
          push_cast
          ring
      _ ≤ x * 2 ^ (-53 : ℤ) := by
          exact mul_le_mul_of_nonneg_right hfull (two_zpow_pos _).le

end Rounds

/-! ## The result -/

/-- The result that stands for `q` units `2 ^ e`, with at most 53 bits. -/
def finish (sign : Sign) (q : ℕ) (e : ℤ) : UnpackedFloat :=
  if h : q = 0 then .zero sign
  else if q < 2 ^ 53 then .finite sign q e (Nat.pos_of_ne_zero h)
  else .finite sign (2 ^ 52) (e + 1) (by decide)

/-- A mantissa of 53 bits is not shifted. -/
theorem shiftToTargetExponent_of_lt {q : ℕ} {e : ℤ} (hq : q < 2 ^ 53) (he : -1074 ≤ e) :
    shiftToTargetExponent Format.binary64 q e .exact = (⟨q, false, false⟩, e) := by
  have hlog : q.log2 ≤ 52 := by
    by_cases hzero : q = 0
    · simp [hzero]
    · have := (Nat.log2_lt hzero).mpr hq
      omega
  have hshift : (max ((q.log2 : ℤ) + e - 52) (-1074) - e).toNat = 0 := by omega
  rw [shiftToTargetExponent, shiftToExponent, targetExponent_eq, hshift]
  exact Prod.ext rfl (add_zero e)

/-- A carry into one more bit is shifted out. -/
theorem shiftToTargetExponent_carry {e : ℤ} (he : -1074 ≤ e) :
    shiftToTargetExponent Format.binary64 (2 ^ 53) e .exact = (⟨2 ^ 52, false, false⟩, e + 1) := by
  have hshift : (max (((2 ^ 53 : ℕ).log2 : ℤ) + e - 52) (-1074) - e).toNat = 1 := by
    rw [Nat.log2_two_pow]
    omega
  rw [shiftToTargetExponent, shiftToExponent, targetExponent_eq, hshift]
  rfl

theorem roundWithAccuracy_eq (sign : Sign) {m : ℕ} {e : ℤ} {accuracy : Accuracy} {v : ℚ}
    (h : Tracks (.ofMantissaAndAccuracy m accuracy) v)
    (he : e ≤ Format.binary64.targetExponent (totalExponent m e)) :
    ∃ q e', Rounds (v * 2 ^ e) q e' ∧
      roundWithAccuracy Format.binary64 sign m e accuracy = finish sign q e' := by
  have hrounds := h.rounds he
  refine ⟨_, _, hrounds, ?_⟩
  unfold roundWithAccuracy finish
  generalize shiftToTargetExponent Format.binary64 m e accuracy = first at hrounds ⊢
  obtain ⟨em, e'⟩ := first
  dsimp only at hrounds ⊢
  rcases hrounds.le.lt_or_eq with hlt | heq
  · rw [shiftToTargetExponent_of_lt hlt hrounds.least]
    exact dite_congr rfl (fun _ => rfl) fun _ => (if_pos hlt).symm
  · rw [heq, shiftToTargetExponent_carry hrounds.least]
    rfl

section Finish

variable {x : ℚ} {q : ℕ} {e : ℤ}

theorem Rounds.ne_zero (h : Rounds x q e) (hx : 2 ^ (-1075 : ℤ) < x) : q ≠ 0 := by
  rintro rfl
  have hpos := two_zpow_pos e
  have hnear := (abs_le.mp h.near).1
  rw [Nat.cast_zero, zero_sub, neg_le_neg_iff] at hnear
  rcases h.full with rfl | hfull
  · rw [div_le_iff₀ hpos, show (-1074 : ℤ) = -1075 + 1 by rfl, zpow_add_one₀ two_ne_zero] at hnear
    linarith
  · linarith

/-- Below the overflow the exponent fits. -/
theorem Rounds.le_greatest (h : Rounds x q e) (hx : x < overflow) :
    e ≤ 971 ∧ (q = 2 ^ 53 → e + 1 ≤ 971) := by
  have hpos := two_zpow_pos e
  have hlarge (he : 971 < e) : False := by
    rcases h.full with rfl | hfull
    · exact absurd he (by decide)
    · rw [le_div_iff₀ hpos] at hfull
      have hpow : (2 : ℚ) ^ (972 : ℤ) ≤ 2 ^ e := zpow_le_zpow_right₀ one_le_two he
      have hunit := two_zpow_pos 971
      rw [show (972 : ℤ) = 971 + 1 by rfl, zpow_add_one₀ two_ne_zero] at hpow
      rw [overflow] at hx
      generalize (2 : ℚ) ^ (971 : ℤ) = unit at hunit hpow hx
      linarith
  refine ⟨not_lt.mp hlarge, fun hq => not_lt.mp fun he => ?_⟩
  rcases Int.lt_or_eq_of_le (Int.lt_add_one_iff.mp he) with hlt | rfl
  · exact hlarge hlt
  · have hnear := (abs_le.mp h.near).2
    have hdiv : x / 2 ^ (971 : ℤ) < 2 ^ 53 - 1 / 2 := (div_lt_iff₀ hpos).mpr hx
    generalize x / 2 ^ (971 : ℤ) = units at hnear hdiv
    rw [hq] at hnear
    push_cast at hnear
    linarith

/-- A value that does not vanish and does not overflow is rounded to a double near it. -/
theorem Rounds.exists_double (h : Rounds x q e) (sign : Sign) (hlow : 2 ^ (-1075 : ℤ) < x)
    (hhigh : x < overflow) :
    ∃ m e' hm, finish sign q e = .finite sign m e' hm ∧ IsDouble m e' ∧
      |(m : ℚ) * 2 ^ e' - x| ≤ halfUnit x := by
  have hne := h.ne_zero hlow
  obtain ⟨hle, hcarry⟩ := h.le_greatest hhigh
  rw [finish, dif_neg hne]
  rcases h.le.lt_or_eq with hlt | heq
  · rw [if_pos hlt]
    exact ⟨q, e, _, rfl, ⟨hlt, h.least, hle, h.full_mantissa.symm⟩, h.halfUnit_le⟩
  · rw [if_neg heq.not_lt]
    have hleast := h.least
    refine ⟨2 ^ 52, e + 1, _, rfl, ⟨by decide, by omega, hcarry heq, .inl le_rfl⟩, ?_⟩
    have hsame : ((2 ^ 52 : ℕ) : ℚ) * 2 ^ (e + 1) = q * 2 ^ e := by
      rw [heq, zpow_add_one₀ two_ne_zero]
      push_cast
      ring
    rw [hsame]
    exact h.halfUnit_le

/-- A double is not rounded. -/
theorem Rounds.eq_of_isDouble {m : ℕ} {e' : ℤ} (h : Rounds (m * 2 ^ e') q e) (sign : Sign)
    (hm : 0 < m) (hdouble : IsDouble m e') : finish sign q e = .finite sign m e' hm := by
  have hunits : (m : ℚ) * 2 ^ e' / 2 ^ e = m * 2 ^ (e' - e) := by
    rw [zpow_sub₀ two_ne_zero, mul_div_assoc]
  have hlt : (m : ℚ) < 2 ^ 53 := by exact_mod_cast hdouble.lt
  have hbelow := h.below
  have hfull := h.full
  have hnear := h.near
  rw [hunits] at hbelow hfull hnear
  obtain rfl : e' = e := by
    rcases lt_trichotomy e' e with hless | heq | hmore
    · -- a larger unit would leave the value without its leading bit
      have hpow : (2 : ℚ) ^ (e' - e) ≤ 2 ^ (-1 : ℤ) := zpow_le_zpow_right₀ one_le_two (by omega)
      rw [zpow_neg_one] at hpow
      have hleast := hdouble.least
      have hvalue := hfull.resolve_left (by omega)
      nlinarith
    · exact heq
    · have hpow : (2 : ℚ) ^ (1 : ℤ) ≤ 2 ^ (e' - e) := zpow_le_zpow_right₀ one_le_two (by omega)
      rw [zpow_one] at hpow
      have hleast := h.least
      have hvalue : (2 : ℚ) ^ 52 ≤ m := by exact_mod_cast hdouble.full.resolve_right (by omega)
      nlinarith
  rw [sub_self, zpow_zero, mul_one, abs_le] at hnear
  have hless : (q : ℚ) < (m + 1 : ℕ) := by push_cast; linarith
  have hmore : (m : ℚ) < (q + 1 : ℕ) := by push_cast; linarith
  obtain rfl : q = m :=
    le_antisymm (Nat.lt_succ_iff.mp (by exact_mod_cast hless))
      (Nat.lt_succ_iff.mp (by exact_mod_cast hmore))
  rw [finish, dif_neg hm.ne', if_pos hdouble.lt]

end Finish

end Cubature.Decimal
