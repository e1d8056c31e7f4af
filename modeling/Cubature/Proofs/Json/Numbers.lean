import Cubature.Proofs.Json.Grammar
import Mathlib.Tactic.Linarith
import Mathlib.Tactic.Ring

/-!
# Numbers written with digits

A natural number is written as it is read (`naturalOf_toDigits`), and digits whose number is a word
are all taken into a significand (`absorb_eq`).
-/

namespace Cubature.Json

/-! ## Runs of digits -/

theorem naturalOf_eq (digits : List Char) : naturalOf digits = Nat.ofDigitChars 10 digits 0 := by
  rw [Nat.ofDigitChars_eq_foldl, naturalOf]
  congr
  funext n c
  rw [digitValue, Nat.mul_comm]

theorem naturalOf_toDigits (n : ℕ) : naturalOf (Nat.toDigits 10 n) = n := by
  rw [naturalOf_eq, Nat.ofDigitChars_ten_toDigits]

theorem naturalOf_append (digits more : List Char) :
    naturalOf (digits ++ more) = naturalOf digits * 10 ^ more.length + naturalOf more := by
  rw [naturalOf_eq, naturalOf_eq, naturalOf_eq, Nat.ofDigitChars_append,
    Nat.ofDigitChars_eq_ofDigitChars_zero, Nat.mul_comm]

theorem naturalOf_replicate (k : ℕ) : naturalOf (List.replicate k '0') = 0 := by
  rw [naturalOf_eq, Nat.ofDigitChars_replicate_zero, Nat.mul_zero]

theorem naturalOf_cons (c : Char) (digits : List Char) :
    naturalOf (c :: digits) = digitValue c * 10 ^ digits.length + naturalOf digits := by
  rw [← List.singleton_append, naturalOf_append, show naturalOf [c] = digitValue c by
    simp [naturalOf]]

theorem naturalOf_lt {digits : List Char} (h : ∀ c ∈ digits, c.isDigit = true) :
    naturalOf digits < 10 ^ digits.length := by
  induction digits with
  | nil => exact Nat.one_pos
  | cons c digits ih =>
    have hc : digitValue c < 10 := by
      have hdigit : c.toNat ≤ '9'.toNat := (Char.isDigit_iff_toNat.mp (h c (.head _))).2
      rw [digitValue]
      exact lt_of_le_of_lt (Nat.sub_le_sub_right hdigit _) (by decide)
    have hrest := ih fun d hd => h d (.tail _ hd)
    rw [naturalOf_cons, List.length_cons, Nat.pow_succ]
    nlinarith

/-- A digit that is taken into a significand goes before the digits that are left. -/
theorem absorbed_cons (significand : ℕ) (c : Char) (digits : List Char) :
    significand * 10 ^ (c :: digits).length + naturalOf (c :: digits) =
      (significand * 10 + digitValue c) * 10 ^ digits.length + naturalOf digits := by
  rw [naturalOf_cons, List.length_cons, Nat.pow_succ]
  ring

/-- Digits whose number is a word are all taken. -/
theorem absorb_eq {significand : ℕ} {digits : List Char}
    (h : significand * 10 ^ digits.length + naturalOf digits < Size.wordCount) :
    absorb significand digits = (significand * 10 ^ digits.length + naturalOf digits, []) := by
  induction digits generalizing significand with
  | nil => simp [absorb, naturalOf]
  | cons c digits ih =>
    rw [absorbed_cons] at h ⊢
    have hle : significand * 10 + digitValue c ≤
        (significand * 10 + digitValue c) * 10 ^ digits.length :=
      Nat.le_mul_of_pos_right _ (Nat.pow_pos (by decide))
    rw [absorb, if_pos (by omega), ih h]

/-- Digits that are all taken have a number that is a word. -/
theorem absorb_ok {significand value : ℕ} {digits : List Char} (h : significand < Size.wordCount)
    (habsorb : absorb significand digits = (value, [])) :
    significand * 10 ^ digits.length + naturalOf digits = value ∧ value < Size.wordCount := by
  induction digits generalizing significand with
  | nil =>
    cases habsorb
    exact ⟨by simp [naturalOf], h⟩
  | cons c digits ih =>
    rw [absorb] at habsorb
    split at habsorb
    · rename_i hmore
      rw [absorbed_cons]
      exact ih hmore habsorb
    · cases habsorb

theorem toDigits_head {n : ℕ} (hn : 0 < n) : (Nat.toDigits 10 n).head? ≠ some '0' := by
  induction n using Nat.strongRecOn with
  | ind n ih =>
    by_cases hlt : n < 10
    · rw [Nat.toDigits_of_lt_base hlt]
      exact (by decide : ∀ n < 10, 0 < n → [n.digitChar].head? ≠ some '0') n hlt hn
    · rw [Nat.toDigits_of_base_le (by decide) (not_lt.mp hlt), List.head?_append_of_ne_nil _
        Nat.toDigits_ne_nil]
      exact ih _ (Nat.div_lt_self hn (by decide)) (Nat.div_pos (not_lt.mp hlt) (by decide))

theorem isDigits_toDigits (n : ℕ) : IsDigits (Nat.toDigits 10 n) :=
  ⟨Nat.toDigits_ne_nil, fun _ hc => Nat.isDigit_of_mem_toDigits (by decide) (by decide) hc⟩

theorem isDigit_of_mem_zeros {count : ℕ} {c : Char} (h : c ∈ List.replicate count '0') :
    c.isDigit = true := by
  rw [List.eq_of_mem_replicate h]
  rfl

theorem IsDigits.zeros_append {digits : List Char} (h : IsDigits digits) (count : ℕ) :
    IsDigits (List.replicate count '0' ++ digits) :=
  ⟨by simp [h.1], List.forall_mem_append.mpr ⟨fun _ => isDigit_of_mem_zeros, h.2⟩⟩

theorem IsDigits.append_zeros {digits : List Char} (h : IsDigits digits) (count : ℕ) :
    IsDigits (digits ++ List.replicate count '0') :=
  ⟨by simp [h.1], List.forall_mem_append.mpr ⟨h.2, fun _ => isDigit_of_mem_zeros⟩⟩

theorem isWhole_toDigits (n : ℕ) : IsWhole (Nat.toDigits 10 n) := by
  refine ⟨isDigits_toDigits n, fun hhead => ?_⟩
  rcases Nat.eq_zero_or_pos n with rfl | hn
  · rfl
  · exact absurd hhead (toDigits_head hn)

/-- A number whose digits make a word keeps all of them. -/
theorem Numeral.significand_eq {n : Numeral}
    (h : naturalOf (n.whole ++ n.fraction.getD []) < Size.wordCount) :
    n.significand = (naturalOf (n.whole ++ n.fraction.getD []),
      -((n.fraction.getD []).length : ℤ) + n.exponent.getD 0) := by
  rw [naturalOf_append] at h ⊢
  have hle : naturalOf n.whole ≤ naturalOf n.whole * 10 ^ (n.fraction.getD []).length :=
    Nat.le_mul_of_pos_right _ (Nat.pow_pos (by decide))
  have hwhole : absorb 0 n.whole = (naturalOf n.whole, []) := by
    rw [absorb_eq (by rw [Nat.zero_mul]; omega), Nat.zero_mul, Nat.zero_add]
  simp only [significand, hwhole, absorb_eq h, List.length_nil, Nat.sub_zero, Nat.cast_zero,
    zero_sub]

/-- A number is read as a count if it has digits only and they stand for a word. -/
theorem toWord?_eq_some_iff {n : Numeral} {k : ℕ} : n.toWord? = some k ↔
    ∃ digits, n = ⟨false, digits, none, none⟩ ∧ naturalOf digits = k ∧ k < Size.wordCount := by
  obtain ⟨negative, whole, fraction, exponent⟩ := n
  constructor
  · intro h
    simp only [Numeral.toWord?] at h
    split at h
    · cases h
    · rename_i hplain
      simp only [Bool.or_eq_true, Option.isSome_iff_ne_none, not_or, Bool.not_eq_true,
        ne_eq, not_not] at hplain
      obtain ⟨⟨rfl, rfl⟩, rfl⟩ := hplain
      split at h
      · rename_i value habsorb
        cases h
        have hvalue := absorb_ok (by decide) habsorb
        rw [Nat.zero_mul, Nat.zero_add] at hvalue
        exact ⟨whole, rfl, hvalue⟩
      · cases h
  · rintro ⟨digits, heq, rfl, hword⟩
    cases heq
    have habsorb : absorb 0 whole = (naturalOf whole, []) := by
      rw [absorb_eq (by rwa [Nat.zero_mul, Nat.zero_add]), Nat.zero_mul, Nat.zero_add]
    simp only [Numeral.toWord?, habsorb, Option.isSome_none, Bool.or_false, Bool.false_eq_true,
      if_false]

/-- A word that is written as a count is read as it. -/
theorem toWord?_toDigits {n : ℕ} (hn : n < Size.wordCount) :
    Numeral.toWord? ⟨false, Nat.toDigits 10 n, none, none⟩ = some n :=
  toWord?_eq_some_iff.mpr ⟨_, rfl, naturalOf_toDigits n, hn⟩

/-- An exponent with its sign and its digits. -/
theorem writesExponent_toDigits (exponent : ℤ) : WritesExponent (some exponent)
    ('e' :: (if exponent < 0 then '-' else '+') :: Nat.toDigits 10 exponent.natAbs) := by
  refine .signed (.inl rfl) ?_
  have hvalue := naturalOf_toDigits exponent.natAbs
  split
  · have hminus := WritesSigned.minus (isDigits_toDigits exponent.natAbs)
    rwa [hvalue, show -((exponent.natAbs : ℕ) : ℤ) = exponent by omega] at hminus
  · have hplus := WritesSigned.plus (isDigits_toDigits exponent.natAbs)
    rwa [hvalue, show ((exponent.natAbs : ℕ) : ℤ) = exponent by omega] at hplus

theorem writesNumber_toDigits (n : ℕ) :
    WritesNumber ⟨false, Nat.toDigits 10 n, none, none⟩ (Nat.toDigits 10 n) :=
  ⟨[], [], isWhole_toDigits n, .none, .none, by simp⟩

end Cubature.Json
