import Cubature.Decimal.Shortest
import Cubature.Proofs.Decimal.Rounding

/-!
# A decimal near a double

The search for the shortest decimal ends in the interval of the double (`finds_shortest`): what it
hits lies there (`Grid.owns_of_contains`), and so does the value cut after 18 digits, which it would
fall back on (`Interval.Proper.finds_floor`). No more than 18 digits come out (`Interval.floor_lt`),
since the exponent of the value is the right one (`decimalExponent_spec`). In units of the double
the interval reaches half a unit to either side, and less below a power of two
(`Interval.Owns.around`).
-/

namespace Cubature.Decimal

/-! ## The number of digits -/

theorem digitCount_spec {n : ℕ} (hn : 0 < n) :
    0 < digitCount n ∧ 10 ^ (digitCount n - 1) ≤ n ∧ n < 10 ^ digitCount n := by
  have hpos : 0 < digitCount n := Nat.length_toDigits_pos
  refine ⟨hpos, ?_, (Nat.length_toDigits_le_iff (by decide) hpos).mp le_rfl⟩
  by_cases hone : digitCount n = 1
  · rw [hone]
    exact hn
  · refine not_lt.mp fun hlt => ?_
    have hle := (Nat.length_toDigits_le_iff (b := 10) (by decide) (by omega)).mpr hlt
    change digitCount n ≤ digitCount n - 1 at hle
    omega

/-- The exponent of a quotient. -/
theorem decimalExponent_spec {num den : ℕ} (hnum : 0 < num) (hden : 0 < den) :
    (10 : ℚ) ^ (decimalExponent num den - 1) ≤ num / den ∧
      (num : ℚ) / den < 10 ^ decimalExponent num den := by
  have hden' : (0 : ℚ) < den := by exact_mod_cast hden
  unfold decimalExponent
  split
  · rename_i hle
    obtain ⟨hpos, hlow, hhigh⟩ := digitCount_spec (Nat.div_pos hle hden)
    generalize digitCount (num / den) = k at hpos hlow hhigh
    rw [Nat.le_div_iff_mul_le hden] at hlow
    rw [Nat.div_lt_iff_lt_mul hden] at hhigh
    rw [le_div_iff₀ hden', div_lt_iff₀ hden', zpow_natCast,
      show (k : ℤ) - 1 = (k - 1 : ℕ) by omega, zpow_natCast]
    exact ⟨by exact_mod_cast hlow, by exact_mod_cast hhigh⟩
  · rename_i hlt
    -- One less than the quotient that is rounded up lies strictly below the reciprocal.
    have hdiv := Nat.div_add_mod (den + num - 1) num
    have hmod := Nat.mod_lt (den + num - 1) hnum
    obtain ⟨r, hr⟩ : ∃ r, (den + num - 1) / num = r + 1 := by
      refine Nat.exists_eq_succ_of_ne_zero (Nat.div_pos ?_ hnum).ne'
      omega
    rw [hr, Nat.add_sub_cancel]
    rw [hr, Nat.mul_add, Nat.mul_one] at hdiv
    have hless : num * r < den := by omega
    have hmore : den ≤ num * (r + 1) := by
      rw [Nat.mul_add]
      omega
    have hrpos : 0 < r := Nat.pos_of_ne_zero fun hzero => by
      subst hzero
      omega
    obtain ⟨hpos, hlow, hhigh⟩ := digitCount_spec hrpos
    generalize digitCount r = k at hpos hlow hhigh
    have hlow' : num * 10 ^ (k - 1) < den := lt_of_le_of_lt (Nat.mul_le_mul_left _ hlow) hless
    have hhigh' : den ≤ num * 10 ^ k := hmore.trans (Nat.mul_le_mul_left _ hhigh)
    rw [show (1 : ℤ) - k - 1 = -(k : ℤ) by omega, show (1 : ℤ) - k = -((k - 1 : ℕ) : ℤ) by omega,
      zpow_neg, zpow_neg, zpow_natCast, zpow_natCast, le_div_iff₀ hden',
      inv_mul_le_iff₀ (by positivity), div_lt_iff₀ hden', lt_inv_mul_iff₀ (by positivity),
      mul_comm, mul_comm _ (num : ℚ)]
    exact ⟨by exact_mod_cast hhigh', by exact_mod_cast hlow'⟩

/-! ## The interval of a double -/

/-- A value lies in the interval, whose ends belong to it if it is closed. -/
def Interval.Owns (i : Interval) (v : ℚ) : Prop :=
  if i.closed then (i.lower : ℚ) * 2 ^ i.exponent ≤ v ∧ v ≤ i.upper * 2 ^ i.exponent
  else (i.lower : ℚ) * 2 ^ i.exponent < v ∧ v < i.upper * 2 ^ i.exponent

theorem Interval.Owns.bounds {i : Interval} {v : ℚ} (h : i.Owns v) :
    (i.lower : ℚ) * 2 ^ i.exponent ≤ v ∧ v ≤ i.upper * 2 ^ i.exponent := by
  unfold Interval.Owns at h
  split at h
  · exact h
  · exact ⟨h.1.le, h.2.le⟩

theorem Interval.owns_of_lt {i : Interval} {v : ℚ} (hlow : (i.lower : ℚ) * 2 ^ i.exponent < v)
    (hhigh : v < i.upper * 2 ^ i.exponent) : i.Owns v := by
  unfold Interval.Owns
  split
  · exact ⟨hlow.le, hhigh.le⟩
  · exact ⟨hlow, hhigh⟩

/-! ## The grid -/

section Grid

variable {exponent spacing : ℤ} {a c : ℕ}

/-- A step and a quarter unit in a common measure. -/
theorem Grid.exists_measure (exponent spacing : ℤ) :
    ∃ measure : ℚ, 0 < measure ∧
      ((Grid.over exponent spacing).step : ℚ) = 10 ^ spacing * measure ∧
      ((Grid.over exponent spacing).quarter : ℚ) = 2 ^ exponent * measure := by
  have hsplit {b : ℚ} (hb : b ≠ 0) (e : ℤ) : b ^ e.toNat = b ^ e * b ^ (-e).toNat := by
    rw [← zpow_natCast, ← zpow_natCast, ← zpow_add₀ hb]
    congr 1
    omega
  refine ⟨2 ^ (-exponent).toNat * 10 ^ (-spacing).toNat, by positivity, ?_, ?_⟩ <;>
    simp only [Grid.over, Nat.pow_eq, Nat.cast_mul, Nat.cast_pow, Nat.cast_ofNat]
  · rw [hsplit (by norm_num : (10 : ℚ) ≠ 0) spacing]
    ring
  · rw [hsplit two_ne_zero exponent]
    ring

theorem Grid.le_iff : a * (Grid.over exponent spacing).quarter ≤
    c * (Grid.over exponent spacing).step ↔ (a : ℚ) * 2 ^ exponent ≤ c * 10 ^ spacing := by
  obtain ⟨measure, hpos, hstep, hquarter⟩ := Grid.exists_measure exponent spacing
  rw [← Nat.cast_le (α := ℚ), Nat.cast_mul, Nat.cast_mul, hstep, hquarter, ← mul_assoc, ← mul_assoc,
    mul_le_mul_iff_left₀ hpos]

theorem Grid.ge_iff : c * (Grid.over exponent spacing).step ≤
    a * (Grid.over exponent spacing).quarter ↔ (c : ℚ) * 10 ^ spacing ≤ a * 2 ^ exponent := by
  obtain ⟨measure, hpos, hstep, hquarter⟩ := Grid.exists_measure exponent spacing
  rw [← Nat.cast_le (α := ℚ), Nat.cast_mul, Nat.cast_mul, hstep, hquarter, ← mul_assoc, ← mul_assoc,
    mul_le_mul_iff_left₀ hpos]

/-- A multiple in the interval. -/
theorem Grid.owns_of_contains {i : Interval}
    (h : (Grid.over i.exponent spacing).contains i c = true) : i.Owns (c * 10 ^ spacing) := by
  unfold Grid.contains at h
  unfold Interval.Owns
  split at h <;> rename_i hclosed <;> simp only [Bool.and_eq_true, decide_eq_true_eq] at h
  · rw [if_pos hclosed, ← Grid.le_iff, ← Grid.ge_iff]
    exact h
  · rw [if_neg hclosed, ← not_le, ← Grid.ge_iff, not_le, ← not_le (a := (i.upper : ℚ) * _),
      ← Grid.le_iff, not_le]
    exact h

/-- The multiple below the value and the one after it. -/
theorem Grid.floor_spec (i : Interval) :
    ((Grid.over exponent spacing).floor i : ℚ) * 10 ^ spacing ≤ i.value * 2 ^ exponent ∧
      (i.value : ℚ) * 2 ^ exponent <
        ((Grid.over exponent spacing).floor i + 1 : ℕ) * 10 ^ spacing := by
  have hpos : 0 < (Grid.over exponent spacing).step :=
    Nat.mul_pos (Nat.pow_pos (by decide)) (Nat.pow_pos (by decide))
  constructor
  · rw [← Grid.ge_iff]
    exact Nat.div_mul_le_self _ _
  · rw [← not_le, ← Grid.ge_iff, not_le]
    exact (Nat.lt_mul_div_succ _ hpos).trans_eq (mul_comm _ _)

/-- A hit is one of the two neighbours and lies in the interval. -/
theorem Grid.hit_spec {g : Grid} {i : Interval} {tie : Tie} (h : g.hit? i tie = some c) :
    g.contains i c = true ∧ (c = g.floor i ∨ c = g.floor i + 1) := by
  unfold Grid.hit? at h
  dsimp only at h
  split at h
  · rename_i hfloor hnext
    cases h
    split
    · exact ⟨hnext, .inr rfl⟩
    · exact ⟨hfloor, .inl rfl⟩
  · rename_i hfloor _
    cases h
    exact ⟨hfloor, .inl rfl⟩
  · rename_i hnext
    cases h
    exact ⟨hnext, .inr rfl⟩
  · cases h

end Grid

/-! ## The search -/

/-- The exponent of the interval's value. -/
theorem Interval.decimalExponent_spec {i : Interval} (hvalue : 0 < i.value) :
    (10 : ℚ) ^ (i.decimalExponent - 1) ≤ i.value * 2 ^ i.exponent ∧
      (i.value : ℚ) * 2 ^ i.exponent < 10 ^ i.decimalExponent := by
  have hquotient : ((i.value * Nat.pow 2 i.exponent.toNat : ℕ) : ℚ) /
      (Nat.pow 2 (-i.exponent).toNat : ℕ) = i.value * 2 ^ i.exponent := by
    simp only [Nat.pow_eq, Nat.cast_mul, Nat.cast_pow, Nat.cast_ofNat]
    rw [mul_div_assoc, ← zpow_natCast, ← zpow_natCast, ← zpow_sub₀ two_ne_zero]
    congr 2
    omega
  rw [← hquotient]
  exact Decimal.decimalExponent_spec (Nat.mul_pos hvalue (Nat.pow_pos (by decide)))
    (Nat.pow_pos (by decide))

/-- The interval reaches far enough below its value for a decimal cut after 18 digits. -/
structure Interval.Proper (i : Interval) : Prop where
  lower_pos : 0 < i.lower
  lower_lt : i.lower < i.value
  value_lt : i.value < i.upper
  width : i.value ≤ 10 ^ 17 * (i.value - i.lower)

theorem Interval.around_proper {m : ℕ} {q : ℤ} (hm : 0 < m) (hlt : m < 2 ^ 53) :
    (Interval.around m q).Proper := by
  have hone : 4 * m - (4 * m - 1) = 1 := by omega
  have htwo : 4 * m - (4 * m - 2) = 2 := by omega
  refine ⟨?_, ?_, Nat.lt_add_of_pos_right two_pos, ?_⟩ <;> simp only [Interval.around] <;> split
  · omega
  · omega
  · omega
  · omega
  · rw [hone]
    omega
  · rw [htwo]
    omega

/-- The decimal that is found has at most 18 digits and lies in the interval. -/
structure Finds (i : Interval) (d : Digits) (c : ℕ) (spacing : ℤ) : Prop where
  eq : d = .ofMultiple c spacing
  pos : 0 < c
  le : c ≤ 10 ^ 18
  owns : i.Owns (c * 10 ^ spacing)

theorem Interval.Proper.pos_of_le {i : Interval} (h : i.Proper) {c : ℕ} {spacing : ℤ}
    (hlow : (i.lower : ℚ) * 2 ^ i.exponent ≤ c * 10 ^ spacing) : 0 < c := by
  refine Nat.pos_of_ne_zero ?_
  rintro rfl
  have hlower : (0 : ℚ) < i.lower := by exact_mod_cast h.lower_pos
  have hpos := mul_pos hlower (two_zpow_pos i.exponent)
  rw [Nat.cast_zero, zero_mul] at hlow
  linarith

/-- On the grid of `n` digits the multiple below the value has at most `n` digits. -/
theorem Interval.floor_lt {i : Interval} (hvalue : 0 < i.value) (n : ℕ) :
    (i.grid n).floor i < 10 ^ n := by
  have hfloor := (@Grid.floor_spec i.exponent (i.decimalExponent - n) i).1
  have hvalue := (Interval.decimalExponent_spec hvalue).2
  have hpow : (0 : ℚ) < 10 ^ (i.decimalExponent - n) := zpow_pos (by norm_num) _
  have hsplit : (10 : ℚ) ^ i.decimalExponent = 10 ^ n * 10 ^ (i.decimalExponent - n) := by
    rw [← zpow_natCast, ← zpow_add₀ (by norm_num)]
    congr 1
    omega
  have hlt : ((i.grid n).floor i : ℚ) < (10 ^ n : ℕ) := by
    rw [← mul_lt_mul_iff_left₀ hpow]
    push_cast
    rw [← hsplit]
    exact hfloor.trans_lt hvalue
  exact_mod_cast hlt

theorem Interval.Proper.finds_floor {i : Interval} (h : i.Proper) :
    Finds i (.ofMultiple ((i.grid 18).floor i) (i.grid 18).spacing) ((i.grid 18).floor i)
      (i.grid 18).spacing := by
  have hvalue : 0 < i.value := lt_of_le_of_lt (Nat.zero_le _) h.lower_lt
  obtain ⟨hfloor, hnext⟩ := @Grid.floor_spec i.exponent (i.decimalExponent - 18) i
  have hlow : (i.lower : ℚ) * 2 ^ i.exponent <
      (i.grid 18).floor i * 10 ^ (i.decimalExponent - 18) := by
    have hleast := (Interval.decimalExponent_spec hvalue).1
    have hsplit : (10 : ℚ) ^ (i.decimalExponent - 1) = 10 ^ (i.decimalExponent - 18) * 10 ^ 17 := by
      rw [← zpow_natCast, ← zpow_add₀ (by norm_num)]
      congr 1
      omega
    have hwidth : (i.value : ℚ) ≤ 10 ^ 17 * (i.value - i.lower) := by
      rw [← Nat.cast_sub h.lower_lt.le]
      exact_mod_cast h.width
    have hunit := two_zpow_pos i.exponent
    push_cast at hnext
    change (i.value : ℚ) * 2 ^ i.exponent <
      ((i.grid 18).floor i + 1) * 10 ^ (i.decimalExponent - 18) at hnext
    rw [hsplit] at hleast
    nlinarith
  have hhigh : (i.value : ℚ) * 2 ^ i.exponent < i.upper * 2 ^ i.exponent :=
    mul_lt_mul_of_pos_right (by exact_mod_cast h.value_lt) (two_zpow_pos _)
  exact ⟨rfl, h.pos_of_le hlow.le, (Interval.floor_lt hvalue 18).le,
    Interval.owns_of_lt hlow (hfloor.trans_lt hhigh)⟩

theorem Interval.Proper.search_spec {i : Interval} (h : i.Proper) (tie : Tie) (n more : ℕ)
    (hn : n + more = 18) : ∃ c spacing, Finds i (i.search tie n more) c spacing := by
  have hvalue : 0 < i.value := lt_of_le_of_lt (Nat.zero_le _) h.lower_lt
  induction more generalizing n with
  | zero =>
    obtain rfl : n = 18 := hn
    exact ⟨_, _, h.finds_floor⟩
  | succ more ih =>
    rw [Interval.search]
    split
    · rename_i c hhit
      obtain ⟨hcontains, hfloor⟩ := Grid.hit_spec hhit
      have howns := Grid.owns_of_contains hcontains
      have hlt := Interval.floor_lt hvalue n
      have hpow : 10 ^ n ≤ 10 ^ 18 := Nat.pow_le_pow_right (by decide) (by omega)
      exact ⟨c, _, rfl, h.pos_of_le howns.bounds.1, by omega, howns⟩
    · exact ih (n + 1) (by omega)

/-- The shortest decimal has at most 18 digits and lies in the interval of the double. -/
theorem finds_shortest (tie : Tie) {m : ℕ} (q : ℤ) (hm : 0 < m) (hlt : m < 2 ^ 53) :
    ∃ c spacing, Finds (Interval.around m q) (shortest tie m q) c spacing :=
  (Interval.around_proper hm hlt).search_spec tie 1 17 rfl

/-- How far the interval of a double reaches below it, in units. Below a power of two the doubles
lie twice as close. -/
def reach (m : ℕ) (q : ℤ) : ℚ := if m = 2 ^ 52 ∧ -1074 < q then 1 / 4 else 1 / 2

theorem reach_le (m : ℕ) (q : ℤ) : reach m q ≤ 1 / 2 := by
  unfold reach
  split <;> norm_num

/-- The ends of the interval of a double. -/
theorem Interval.around_ends {m : ℕ} (q : ℤ) (hm : 0 < m) :
    ((Interval.around m q).lower : ℚ) * 2 ^ (Interval.around m q).exponent =
        (m - reach m q) * 2 ^ q ∧
      ((Interval.around m q).upper : ℚ) * 2 ^ (Interval.around m q).exponent =
        (m + 1 / 2) * 2 ^ q := by
  have hexponent : (2 : ℚ) ^ (Interval.around m q).exponent = 2 ^ q / 4 := by
    show (2 : ℚ) ^ (q - 2) = 2 ^ q / 4
    rw [zpow_sub₀ two_ne_zero]
    norm_num
  have hlower : ((Interval.around m q).lower : ℚ) = 4 * (m - reach m q) := by
    have hcondition : (m = fractionCount ∧ -1074 < q) ↔ (m = 2 ^ 52 ∧ -1074 < q) := Iff.rfl
    simp only [Interval.around, reach, hcondition]
    split
    · rw [Nat.cast_sub (by omega)]
      push_cast
      ring
    · rw [Nat.cast_sub (by omega)]
      push_cast
      ring
  have hupper : ((Interval.around m q).upper : ℚ) = 4 * (m + 1 / 2) := by
    simp only [Interval.around]
    push_cast
    ring
  constructor
  · rw [hlower, hexponent]
    ring
  · rw [hupper, hexponent]
    ring

/-- The interval of a double, in units. The ends belong to it if the double is even. -/
theorem Interval.Owns.around {m : ℕ} {q : ℤ} {v : ℚ} (hm : 0 < m)
    (h : (Interval.around m q).Owns v) :
    m - reach m q ≤ v / 2 ^ q ∧ v / 2 ^ q ≤ m + 1 / 2 ∧
      (m % 2 = 1 → m - reach m q < v / 2 ^ q ∧ v / 2 ^ q < m + 1 / 2) := by
  have hunit := two_zpow_pos q
  obtain ⟨hlow, hhigh⟩ := Interval.around_ends q hm
  obtain ⟨hbelow, habove⟩ := h.bounds
  rw [hlow] at hbelow
  rw [hhigh] at habove
  refine ⟨(le_div_iff₀ hunit).mpr hbelow, (div_le_iff₀ hunit).mpr habove, fun hodd => ?_⟩
  have hopen : (Interval.around m q).closed ≠ true := by
    show ¬decide (m % 2 = 0) = true
    simp [hodd]
  rw [Interval.Owns, if_neg hopen, hlow, hhigh] at h
  exact ⟨(lt_div_iff₀ hunit).mpr h.1, (div_lt_iff₀ hunit).mpr h.2⟩

/-- The interval is within half a unit of the double. -/
theorem Interval.Owns.half_unit {m : ℕ} {q : ℤ} {v : ℚ} (hm : 0 < m)
    (h : (Interval.around m q).Owns v) :
    ((m : ℚ) - 1 / 2) * 2 ^ q ≤ v ∧ v ≤ (m + 1 / 2) * 2 ^ q := by
  obtain ⟨hbelow, habove, -⟩ := h.around hm
  have hunit := two_zpow_pos q
  have hreach := reach_le m q
  refine ⟨?_, (div_le_iff₀ hunit).mp habove⟩
  rw [← le_div_iff₀ hunit]
  linarith

end Cubature.Decimal
