import Cubature.Proofs.Decimal.Scaled
import Cubature.Proofs.Decimal.Shortest

/-!
# A decimal that is read as a double

The reals that round to a double are those of its interval (`Rounds.eq_of_owned`). So a decimal in
the interval is read as the double if no step but the last is rounded (`scale_of_owned`): if its
digits are fewer than `2 ^ 53` and its power of ten is at most the 22nd, these are doubles
themselves.
-/

namespace Cubature.Decimal

open Float.Model Float.Model.UnpackedFloat

/-! ## Rounding in the interval of a double -/

section Nearest

variable {v : ℚ} {Q m : ℕ} {e q : ℤ}

/-- A value in the interval of a double is rounded in the units of the double, or in half units if
it is just below a power of two. -/
theorem Rounds.exponent_eq (h : Rounds v Q e) (hdouble : IsDouble m q)
    (hlow : m - reach m q ≤ v / 2 ^ q) (hhigh : v / 2 ^ q ≤ m + 1 / 2) :
    e = q ∨ e + 1 = q ∧ m = 2 ^ 52 ∧ 2 ^ 53 - 1 / 2 ≤ v / 2 ^ e := by
  have hshift : v / 2 ^ e = v / 2 ^ q * 2 ^ (q - e) := by
    rw [zpow_sub₀ two_ne_zero, div_mul_div_comm, mul_comm,
      mul_div_mul_left _ _ (two_zpow_pos q).ne']
  have hreach := reach_le m q
  have hbelow := h.below
  have hfull := h.full
  have hleast := h.least
  rw [hshift] at hbelow hfull ⊢
  generalize v / 2 ^ q = w at *
  rcases lt_trichotomy e q with hless | heq | hmore
  · -- A smaller unit has too many bits, except right below a power of two.
    have hfullm : 2 ^ 52 ≤ m := hdouble.full.resolve_right (by omega)
    have hpow : (2 : ℚ) ^ (1 : ℤ) ≤ 2 ^ (q - e) := zpow_le_zpow_right₀ one_le_two (by omega)
    rw [zpow_one] at hpow
    have hm : m = 2 ^ 52 := by
      by_contra hne
      have hmore : (2 : ℚ) ^ 52 + 1 ≤ m := by exact_mod_cast lt_of_le_of_ne hfullm (Ne.symm hne)
      nlinarith
    have hquarter : reach m q = 1 / 4 := if_pos ⟨hm, by omega⟩
    have hw : (2 : ℚ) ^ 52 - 1 / 4 ≤ w := by
      rw [hquarter, hm] at hlow
      exact_mod_cast hlow
    have hnext : e + 1 = q := by
      by_contra hne
      have hpow' : (2 : ℚ) ^ (2 : ℤ) ≤ 2 ^ (q - e) := zpow_le_zpow_right₀ one_le_two (by omega)
      norm_num at hpow'
      nlinarith
    refine .inr ⟨hnext, hm, ?_⟩
    nlinarith
  · exact .inl heq
  · -- A larger unit leaves fewer than 53 bits.
    have hpow : (2 : ℚ) ^ (q - e) ≤ 2 ^ (-1 : ℤ) := zpow_le_zpow_right₀ one_le_two (by omega)
    rw [zpow_neg_one] at hpow
    have hvalue := hfull.resolve_left (by have := hdouble.least; omega)
    have hlt : (m : ℚ) + 1 ≤ 2 ^ 53 := by exact_mod_cast hdouble.lt
    have hpos := two_zpow_pos (q - e)
    nlinarith

/-- A value within half a unit of a whole number of units is rounded to that number, if a tie does
not go to another. -/
theorem Rounds.eq_of_within (h : Rounds v Q e) (hlow : m - 1 / 2 ≤ v / 2 ^ e)
    (hhigh : v / 2 ^ e ≤ m + 1 / 2)
    (hodd : m % 2 = 1 → m - 1 / 2 < v / 2 ^ e ∧ v / 2 ^ e < m + 1 / 2) : Q = m := by
  have hnear := abs_le.mp h.near
  have heven := h.even
  rcases lt_trichotomy Q m with hless | heq | hmore
  · have hstep : (Q : ℚ) + 1 ≤ m := by exact_mod_cast hless
    have hsum : (Q + 1 : ℕ) = (m : ℚ) := by
      push_cast
      linarith
    have htie := heven (by rw [abs_eq (by norm_num)]; right; linarith)
    have hnext : Q + 1 = m := by exact_mod_cast hsum
    linarith [(hodd (by omega)).1]
  · exact heq
  · have hstep : (m : ℚ) + 1 ≤ Q := by exact_mod_cast hmore
    have hsum : (m + 1 : ℕ) = (Q : ℚ) := by
      push_cast
      linarith
    have htie := heven (by rw [abs_eq (by norm_num)]; left; linarith)
    have hnext : m + 1 = Q := by exact_mod_cast hsum
    linarith [(hodd (by omega)).2]

/-- A value in the interval of a double is rounded to the double. -/
theorem Rounds.eq_of_owned (h : Rounds v Q e) (sign : Sign) (hm : 0 < m) (hdouble : IsDouble m q)
    (howns : (Interval.around m q).Owns v) : finish sign Q e = .finite sign m q hm := by
  obtain ⟨hlow, hhigh, hodd⟩ := howns.around hm
  have hreach := reach_le m q
  rcases h.exponent_eq hdouble hlow hhigh with rfl | ⟨rfl, rfl, hcarry⟩
  · obtain rfl : Q = m := by
      refine h.eq_of_within (by linarith) hhigh fun hm => ⟨?_, (hodd hm).2⟩
      linarith [(hodd hm).1]
    rw [finish, dif_neg hm.ne', if_pos hdouble.lt]
  · -- The value is rounded up to the power of two above it.
    obtain rfl : Q = 2 ^ 53 := by
      refine h.eq_of_within ?_ ?_ fun hodd => absurd hodd (by decide)
      · exact_mod_cast hcarry
      · push_cast
        linarith [h.below]
    rfl

end Nearest

/-! ## Steps that are not rounded -/

section Exact

variable {x y : Float} {v : ℚ} {Q : ℕ} {e : ℤ}

/-- A value that a number holds is rounded to the number. -/
theorem Holds.eq_of_rounds (hy : Holds y v) (h : Rounds v Q e) :
    .ofModel (.pack (finish .positive Q e)) = y := by
  obtain ⟨m, q, hm, hunpack, hdouble, rfl⟩ := hy
  rw [h.eq_of_isDouble .positive hm hdouble]
  exact eq_of_unpack_eq (unpack_pack .positive hm hdouble) hunpack

theorem ofScientific_eq {n k : ℕ} (hn : 0 < n) (hlt : n < 2 ^ 53)
    (hk : k ≤ 22) (hy : Holds y (n * 10 ^ k)) : Float.ofScientific n false k = y := by
  obtain ⟨Q, e, hrounds, hmul⟩ :=
    (holds_ofUInt64 hn hlt).mul_rounds (holds_exactlyRepresentable (Nat.lt_succ_of_le hk))
  rw [← hy.eq_of_rounds hrounds, ← hmul, Float.ofScientific, dif_pos ⟨hlt, hk⟩]
  rfl

theorem holds_ofNat_exact {n : ℕ} (hn : 0 < n) (hlt : n < 2 ^ 53) : Holds (Float.ofNat n) n := by
  have hword := holds_ofUInt64 hn hlt
  have heq : Float.ofNat n = n.toUInt64.toFloat :=
    ofScientific_eq hn hlt (by decide) (by rwa [pow_zero, mul_one])
  rw [heq]
  exact hword

theorem holds_powerOfTen_exact {k : ℕ} (hk : k ≤ 22) : Holds (powerOfTen k) (10 ^ k) := by
  have hlt : k < Float.exactlyRepresentablePowersOfTen.size := Nat.lt_succ_of_le hk
  have hpower := holds_exactlyRepresentable hlt
  have heq : powerOfTen k = Float.exactlyRepresentablePowersOfTen[k] :=
    ofScientific_eq one_pos (by decide) hk (by rwa [Nat.cast_one, one_mul])
  rw [heq]
  exact hpower

/-- A decimal in the interval of a double is read as the double, if its digits and its power of ten
are doubles themselves, so that only the last step is rounded. -/
theorem scale_of_owned {m D : ℕ} {q E : ℤ} {hm : 0 < m}
    (hx : x.toModel.unpack = .finite .positive m q hm) (hdouble : IsDouble m q) (hD : 0 < D)
    (hlt : D < 2 ^ 53) (hE : E.natAbs ≤ 22) (howns : (Interval.around m q).Owns (D * 10 ^ E)) :
    scale D E = some x := by
  have hdigits := holds_ofNat_exact hD hlt
  have hpower := holds_powerOfTen_exact hE
  have hpack : ∀ {Q : ℕ} {e : ℤ}, Rounds (D * 10 ^ E) Q e →
      .ofModel (.pack (finish .positive Q e)) = x := by
    intro Q e hrounds
    rw [hrounds.eq_of_owned .positive hm hdouble howns]
    exact eq_of_unpack_eq (unpack_pack .positive hm hdouble) hx
  have hholds : Holds x (m * 2 ^ q) := ⟨m, q, hm, hx, hdouble, rfl⟩
  rcases lt_or_ge E 0 with hneg | hnonneg
  case inr =>
    obtain ⟨k, rfl⟩ := Int.eq_ofNat_of_zero_le hnonneg
    obtain ⟨Q, e, hrounds, hmul⟩ := hdigits.mul_rounds hpower
    rw [Int.natAbs_natCast, ← zpow_natCast] at hrounds
    rw [hpack hrounds, Int.natAbs_natCast] at hmul
    rw [← hmul]
    exact scaleSteps_mul (by unfold greatestPower; omega) _ (hmul ▸ hholds.not_isInf)
  case inl =>
    obtain ⟨k, rfl⟩ : ∃ k : ℕ, E = -k := ⟨E.natAbs, by omega⟩
    have hpos : 0 < k := by omega
    obtain ⟨Q, e, hrounds, hdiv⟩ := hdigits.div_rounds hpower
    rw [Int.natAbs_neg, Int.natAbs_natCast, div_eq_mul_inv, ← zpow_natCast, ← zpow_neg] at hrounds
    rw [hpack hrounds, Int.natAbs_neg, Int.natAbs_natCast] at hdiv
    rw [← hdiv]
    exact scaleSteps_div hpos (by unfold greatestPower; omega) _

end Exact

end Cubature.Decimal
