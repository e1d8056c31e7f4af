import Cubature.Decimal.Layout
import Cubature.Proofs.Decimal.Shortest
import Cubature.Proofs.Json.Numbers
import Mathlib.Data.List.TakeWhile

/-!
# Decimals in stored files

The digits of a decimal are written with a point among them or with an exponent. Either text is a
JSON number of the same value (`Layout.data_isWritten`), with zeros at the end only where the number
is whole.
-/

namespace Cubature.Decimal

open Json (naturalOf naturalOf_append naturalOf_lt naturalOf_replicate naturalOf_toDigits
  IsDigits WritesNumber WritesFraction WritesExponent Numeral)

/-- Digits that begin with none that could be left out. -/
structure Digits.Proper (d : Digits) : Prop where
  digits : IsDigits d.digits
  head : d.digits.head? ≠ some '0'

/-- The digits of a multiple that are left out are zeros at the end. -/
theorem Digits.exists_zeros (c : ℕ) (spacing : ℤ) : ∃ zeros,
    Nat.toDigits 10 c = (Digits.ofMultiple c spacing).digits ++ List.replicate zeros '0' := by
  let zeros := (Nat.toDigits 10 c).reverse.takeWhile (· == '0')
  let others := (Nat.toDigits 10 c).reverse.dropWhile (· == '0')
  have hzeros : zeros = List.replicate zeros.length '0' :=
    List.eq_replicate_of_mem fun d hd => by simpa using List.mem_takeWhile_imp hd
  have hall : zeros ++ others = (Nat.toDigits 10 c).reverse := List.takeWhile_append_dropWhile
  refine ⟨zeros.length, ?_⟩
  calc Nat.toDigits 10 c = (zeros ++ others).reverse := by rw [hall, List.reverse_reverse]
    _ = others.reverse ++ zeros.reverse := List.reverse_append
    _ = others.reverse ++ List.replicate zeros.length '0' := by
        rw [← List.reverse_replicate, ← hzeros]

/-- The digits of a positive multiple, which keep its value. -/
theorem Digits.ofMultiple_spec {c : ℕ} (spacing : ℤ) (hc : 0 < c) :
    (Digits.ofMultiple c spacing).Proper ∧ naturalOf (Digits.ofMultiple c spacing).digits ≤ c ∧
      (naturalOf (Digits.ofMultiple c spacing).digits : ℚ) *
        10 ^ ((Digits.ofMultiple c spacing).point - (Digits.ofMultiple c spacing).digits.length) =
      c * 10 ^ spacing := by
  have hpoint : (Digits.ofMultiple c spacing).point = (Nat.toDigits 10 c).length + spacing := rfl
  obtain ⟨zeros, hzeros⟩ := Digits.exists_zeros c spacing
  obtain ⟨digits, hdigits⟩ : ∃ digits, digits = (Digits.ofMultiple c spacing).digits := ⟨_, rfl⟩
  rw [← hdigits] at hzeros
  have hvalue : c = naturalOf digits * 10 ^ zeros := by
    rw [← naturalOf_toDigits c, hzeros, naturalOf_append, naturalOf_replicate,
      List.length_replicate, Nat.add_zero]
  have hne : digits ≠ [] := by
    rintro rfl
    rw [show naturalOf [] = 0 from rfl, Nat.zero_mul] at hvalue
    omega
  rw [hpoint, ← hdigits, hzeros, List.length_append, List.length_replicate]
  refine ⟨⟨⟨hdigits ▸ hne, fun d hd => ?_⟩, ?_⟩, ?_, ?_⟩
  · refine (Json.isDigits_toDigits c).2 d ?_
    rw [hzeros]
    exact List.mem_append_left _ (hdigits ▸ hd)
  · have hhead := Json.toDigits_head hc
    rw [hzeros, List.head?_append_of_ne_nil _ hne] at hhead
    exact hdigits ▸ hhead
  · exact (Nat.le_mul_of_pos_right _ (Nat.pow_pos (by decide))).trans_eq hvalue.symm
  · have hexponent : ((digits.length + zeros : ℕ) : ℤ) + spacing - digits.length =
        zeros + spacing := by
      push_cast
      ring
    rw [hexponent, zpow_add₀ (by norm_num), zpow_natCast, ← mul_assoc]
    congr 1
    conv_rhs => rw [hvalue]
    push_cast
    ring

/-! ## Positional and scientific texts -/

/-- The text is a number of the given sign that is read with the significand and the exponent of the
digits, up to zeros at the end. -/
def Digits.IsWritten (d : Digits) (negative : Bool) (text : List Char) : Prop :=
  ∃ (n : Numeral) (zeros : ℕ), n.negative = negative ∧
    WritesNumber n ((if negative then ['-'] else []) ++ text) ∧
    n.significand = (naturalOf d.digits * 10 ^ zeros, d.point - d.digits.length - zeros) ∧
    naturalOf d.digits * 10 ^ zeros < Size.wordCount ∧ (16 < d.point → zeros = 0)

/-- A number that is written with the digits and some zeros after them. -/
theorem Digits.isWritten {d : Digits} {negative : Bool} (n : Numeral) (zeros : ℕ)
    {fraction exponent text : List Char} (htext : text = n.whole ++ fraction ++ exponent)
    (hsign : n.negative = negative) (hwhole : Json.IsWhole n.whole)
    (hfraction : WritesFraction n.fraction fraction)
    (hexponent : WritesExponent n.exponent exponent)
    (hdigits : naturalOf (n.whole ++ n.fraction.getD []) = naturalOf d.digits * 10 ^ zeros)
    (hpoint : -((n.fraction.getD []).length : ℤ) + n.exponent.getD 0 =
      d.point - d.digits.length - zeros)
    (hlt : naturalOf d.digits * 10 ^ zeros < Size.wordCount) (hzeros : 16 < d.point → zeros = 0) :
    d.IsWritten negative text := by
  subst htext
  refine ⟨n, zeros, hsign, ⟨fraction, exponent, hwhole, hfraction, hexponent, ?_⟩, ?_, hlt, hzeros⟩
  · rw [hsign]
    simp only [List.append_assoc]
  · rw [Numeral.significand_eq (by rwa [hdigits]), hdigits, hpoint]

/-- The first digits of a number are a whole part. -/
theorem Digits.Proper.isWhole_take {d : Digits} (h : d.Proper) {k : ℕ} (hk : 0 < k) :
    Json.IsWhole (d.digits.take k) := by
  obtain ⟨c, rest, hcons⟩ := List.exists_cons_of_ne_nil h.digits.1
  have hhead : (d.digits.take k).head? = d.digits.head? := by
    rw [List.head?_take, if_neg hk.ne']
  refine ⟨⟨?_, fun c hc => h.digits.2 c (List.mem_of_mem_take hc)⟩, fun hzero => ?_⟩
  · rw [Ne, List.take_eq_nil_iff, not_or]
    exact ⟨hk.ne', h.digits.1⟩
  · rw [hhead] at hzero
    exact absurd hzero h.head

/-- All digits are behind the point. -/
theorem Digits.Proper.below_isWritten {d : Digits} (h : d.Proper)
    (hlt : naturalOf d.digits < Size.wordCount) (hpoint : d.point ≤ 0) (negative : Bool) :
    d.IsWritten negative
      ('0' :: '.' :: (List.replicate (-d.point).toNat '0' ++ d.digits)) := by
  have hdigits : 0 < d.digits.length := List.length_pos_iff.mpr h.digits.1
  refine Digits.isWritten ⟨negative, ['0'],
    some (List.replicate (-d.point).toNat '0' ++ d.digits), none⟩ 0 (by simp) rfl
    (Json.isWhole_toDigits 0) (.digits (h.digits.zeros_append _)) .none ?_ ?_ ?_ fun _ => rfl
  · rw [Option.getD_some, naturalOf_append, naturalOf_append, naturalOf_replicate]
    simp [naturalOf, Json.digitValue]
  · simp only [Option.getD_some, List.length_append, List.length_replicate, Option.getD_none]
    omega
  · simpa using hlt

/-- All digits are in front of the point, with zeros between them and the point and one behind it.
The number that is read has as many zeros at the end. -/
theorem Digits.Proper.whole_isWritten {d : Digits} (h : d.Proper) {zeros : ℕ}
    (hzeros : d.point = d.digits.length + zeros) (hpoint : d.point ≤ 16) (negative : Bool) :
    d.IsWritten negative (d.digits ++ List.replicate zeros '0' ++ ['.', '0']) := by
  refine Digits.isWritten ⟨negative, d.digits ++ List.replicate zeros '0', some ['0'],
    none⟩ (zeros + 1) (by simp) rfl ⟨h.digits.append_zeros _, fun hhead => ?_⟩
    (.digits (Json.isDigits_toDigits 0)) .none ?_ ?_ ?_ fun hlarge => ?_
  · rw [List.head?_append_of_ne_nil _ h.digits.1] at hhead
    exact absurd hhead h.head
  · rw [Option.getD_some, naturalOf_append, naturalOf_append, naturalOf_replicate,
      List.length_replicate, pow_succ, Nat.add_zero, Nat.mul_assoc]
    rfl
  · simp only [Option.getD_some, List.length_singleton, Option.getD_none]
    omega
  · have hbound := naturalOf_lt h.digits.2
    have hpow : 10 ^ (d.digits.length + (zeros + 1)) ≤ 10 ^ 17 :=
      Nat.pow_le_pow_right (by decide) (by omega)
    calc naturalOf d.digits * 10 ^ (zeros + 1)
        < 10 ^ d.digits.length * 10 ^ (zeros + 1) :=
          Nat.mul_lt_mul_of_pos_right hbound (Nat.pow_pos (by decide))
      _ = 10 ^ (d.digits.length + (zeros + 1)) := (Nat.pow_add _ _ _).symm
      _ ≤ 10 ^ 17 := hpow
      _ < Size.wordCount := by decide
  · omega

/-- The point is among the digits. -/
theorem Digits.Proper.among_isWritten {d : Digits} (h : d.Proper)
    (hlt : naturalOf d.digits < Size.wordCount) {k : ℕ} (hk : 0 < k) (hmore : k < d.digits.length)
    (hpoint : d.point = k) (negative : Bool) :
    d.IsWritten negative (d.digits.take k ++ '.' :: d.digits.drop k) := by
  refine Digits.isWritten ⟨negative, d.digits.take k, some (d.digits.drop k), none⟩ 0 (by simp) rfl
    (h.isWhole_take hk) (.digits ⟨by simpa using hmore, ?_⟩) .none ?_ ?_ ?_ fun _ => rfl
  · exact fun c hc => h.digits.2 c (List.mem_of_mem_drop hc)
  · rw [Option.getD_some, List.take_append_drop, pow_zero, mul_one]
  · simp only [Option.getD_some, List.length_drop, Option.getD_none]
    omega
  · simpa using hlt

theorem Digits.Proper.positional_isWritten {d : Digits} (h : d.Proper)
    (hlt : naturalOf d.digits < Size.wordCount) (hpoint : d.point ≤ 16) (negative : Bool) :
    d.IsWritten negative (d.positional true) := by
  unfold Digits.positional
  split
  case isTrue hsmall => exact h.below_isWritten hlt hsmall negative
  case isFalse hpos =>
    split
    case isTrue hall => exact h.whole_isWritten (by omega) hpoint negative
    case isFalse hmore =>
      exact h.among_isWritten hlt (by omega) (not_le.mp hmore) (by omega) negative

theorem Digits.Proper.scientific_isWritten {d : Digits} (h : d.Proper)
    (hlt : naturalOf d.digits < Size.wordCount) (negative : Bool) :
    d.IsWritten negative d.scientific := by
  have hexponent := Json.writesExponent_toDigits (d.point - 1)
  have hwhole := h.isWhole_take one_pos
  have hdigits : 0 < d.digits.length := List.length_pos_iff.mpr h.digits.1
  unfold Digits.scientific
  dsimp only
  split
  · rename_i hnone
    have hone : d.digits.length = 1 := by
      have hlength := congrArg List.length hnone
      rw [List.length_drop, List.length_nil] at hlength
      omega
    refine Digits.isWritten ⟨negative, d.digits.take 1, none, some (d.point - 1)⟩ 0
      (by simp) rfl hwhole .none hexponent ?_ ?_ ?_ fun _ => rfl
    · rw [Option.getD_none, List.append_nil, pow_zero, mul_one, List.take_of_length_le hone.le]
    · simp only [Option.getD_none, List.length_nil, Option.getD_some, hone]
      omega
    · simpa using hlt
  · rename_i hsome
    refine Digits.isWritten ⟨negative, d.digits.take 1, some (d.digits.drop 1),
      some (d.point - 1)⟩ 0 (by simp) rfl hwhole
      (.digits ⟨hsome, fun c hc => h.digits.2 c (List.mem_of_mem_drop hc)⟩) hexponent ?_ ?_ ?_
      fun _ => rfl
    · rw [Option.getD_some, List.take_append_drop, pow_zero, mul_one]
    · simp only [Option.getD_some, List.length_drop]
      omega
    · simpa using hlt

/-- Stored files hold numbers that are JSON. -/
theorem Layout.data_isWritten {d : Digits} (h : d.Proper)
    (hlt : naturalOf d.digits < Size.wordCount) (negative : Bool) :
    d.IsWritten negative (Layout.data.write d) := by
  show d.IsWritten negative
    (if -4 ≤ d.point ∧ d.point ≤ 16 then d.positional true else d.scientific)
  split
  · rename_i hrange
    exact h.positional_isWritten hlt hrange.2 negative
  · exact h.scientific_isWritten hlt negative

end Cubature.Decimal
