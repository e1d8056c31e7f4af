import Cubature.Config.Basic
import Cubature.Proofs.Decimal.Powers
import Cubature.Proofs.Registry.Request

/-!
# The exponent of the weight

The weights of the rule for `(1 - x) ^ alpha` are scaled by two to the power `alpha + 1`. The word
`alpha` is read as signed before it is raised by one, so only its lower half gives this power
(`weightExponent_of_lt`). The largest signed word has no successor (`weightExponent_of_eq`), and
from there on the exponent is too small by the number of words (`weightExponent_of_gt`).

The main statement is `floatRule_scale`. `scale_wraps` has the two words at which a rule for every
weight `(1 - x) ^ alpha` is missed.
-/

namespace Cubature.Gauss

open Decimal (IsTwoPower)
open scoped Scalar

variable {alpha : UInt32} {n : ℕ}

/-! ## Exponents -/

/-- A word read as signed. -/
theorem toInt_toInt32 (alpha : UInt32) :
    (alpha.toNat < 2 ^ 31 → alpha.toInt32.toInt = alpha.toNat) ∧
      (2 ^ 31 ≤ alpha.toNat → alpha.toInt32.toInt = alpha.toNat - 2 ^ 32) := by
  have hsigned : alpha.toInt32.toInt =
      if 2 * alpha.toNat < 2 ^ 32 then (alpha.toNat : ℤ) else alpha.toNat - (2 ^ 32 : ℕ) :=
    BitVec.toInt_eq_toNat_cond alpha.toBitVec
  rw [hsigned]
  constructor <;> intro h <;> split <;> omega

/-- Below the largest signed word the exponent is the successor. -/
theorem weightExponent_of_lt (h : alpha.toNat + 1 < 2 ^ 31) :
    weightExponent alpha = .ok (alpha.toNat + 1) := by
  have hsigned := (toInt_toInt32 alpha).1 (by omega)
  simp only [weightExponent, hsigned]
  exact if_pos (by omega)

/-- The largest signed word has no successor. -/
theorem weightExponent_of_eq (h : alpha.toNat + 1 = 2 ^ 31) :
    weightExponent alpha = .error (.aborted .overflow) := by
  have hsigned := (toInt_toInt32 alpha).1 (by omega)
  simp only [weightExponent, hsigned]
  exact if_neg (by omega)

/-- Past the signed words the successor is that of a negative number. -/
theorem weightExponent_of_gt (h : 2 ^ 31 < alpha.toNat + 1) :
    weightExponent alpha = .ok (alpha.toNat + 1 - 2 ^ 32) := by
  have hlt : alpha.toNat < 2 ^ 32 := alpha.toBitVec.isLt
  have hsigned := (toInt_toInt32 alpha).2 (by omega)
  simp only [weightExponent, hsigned, sub_add_eq_add_sub]
  exact if_pos (by omega)

/-! ## Rules -/

section Rules

variable (hpos : 1 ≤ n) (hn : n < Size.tableLimit)

include hpos hn

/-- Where the exponent is out of range there is no rule. -/
theorem floatRule_of_error (limits : Limits Float) (halpha : alpha ≠ 0) {cause : Failure}
    (h : weightExponent alpha = .error cause) : floatRule limits n alpha = .error cause := by
  rw [floatRule, rule, if_neg (Nat.ne_of_gt hpos), Size.table_eq_ok hn, h]
  exact if_neg halpha

/-- Elsewhere there is one, whose weights are scaled by the power of two. -/
theorem floatRule_of_exponent (limits : Limits Float) (halpha : alpha ≠ 0) {exponent : ℤ}
    (h : weightExponent alpha = .ok exponent) :
    ∃ scale, floatRule limits n alpha =
        .ok (jacobiNodes limits n (Float.ofNat alpha.toNat) scale) ∧
      IsTwoPower scale exponent := by
  refine ⟨_, ?_, Decimal.isTwoPower_powerInt exponent⟩
  rw [floatRule, rule, if_neg (Nat.ne_of_gt hpos), Size.table_eq_ok hn, h]
  exact if_neg halpha

/-- The rule for `(1 - x) ^ alpha`, for every word `alpha` and every number of points that fits a
table. There is one with all nodes and weights unless `alpha` is the largest signed word, for which
the request is given up. Below that word the weights are scaled by two to the power `alpha + 1`,
which is infinite past the doubles. Past it they are scaled by a power that is too small by `2 ^ 32`
factors of two, which is at most one. -/
theorem floatRule_scale (limits : Limits Float) (alpha : UInt32) :
    (alpha.toNat + 1 = 2 ^ 31 → floatRule limits n alpha = .error (.aborted .overflow)) ∧
    (alpha.toNat + 1 ≠ 2 ^ 31 → ∃ nodes, floatRule limits n alpha = .ok nodes ∧
      nodes.locations.length = n ∧ nodes.weights.length = n) ∧
    (1 ≤ alpha.toNat → alpha.toNat + 1 < 2 ^ 31 → ∃ scale, floatRule limits n alpha =
        .ok (jacobiNodes limits n (Float.ofNat alpha.toNat) scale) ∧
      IsTwoPower scale (alpha.toNat + 1)) ∧
    (2 ^ 31 < alpha.toNat + 1 → ∃ scale, floatRule limits n alpha =
        .ok (jacobiNodes limits n (Float.ofNat alpha.toNat) scale) ∧
      IsTwoPower scale (alpha.toNat + 1 - 2 ^ 32)) := by
  have halpha (h : 1 ≤ alpha.toNat) : alpha ≠ 0 := by
    rintro rfl
    exact absurd h (by decide)
  have hrule {exponent : ℤ} (h : weightExponent alpha = .ok exponent) :
      ∃ nodes, floatRule limits n alpha = .ok nodes ∧
        nodes.locations.length = n ∧ nodes.weights.length = n := by
    obtain ⟨nodes, hnodes⟩ := rule_isOk chebyshevStart limits hpos hn h
    exact ⟨nodes, hnodes, (length_rule hnodes).2⟩
  refine ⟨fun h => ?_, fun h => ?_, fun h₁ h => ?_, fun h => ?_⟩
  · exact floatRule_of_error hpos hn limits (halpha (by omega)) (weightExponent_of_eq h)
  · rcases Nat.lt_or_gt_of_ne h with hlt | hgt
    · exact hrule (weightExponent_of_lt hlt)
    · exact hrule (weightExponent_of_gt hgt)
  · exact floatRule_of_exponent hpos hn limits (halpha h₁) (weightExponent_of_lt h)
  · exact floatRule_of_exponent hpos hn limits (halpha (by omega)) (weightExponent_of_gt h)

end Rules

/-- The weights for `(1 - x) ^ 2` are scaled by eight, those for `(1 - x) ^ 1100` by infinity. -/
theorem floatRule_scale_eight : 1 ≤ 3 ∧ 3 < Size.tableLimit ∧
    (∃ scale, floatRule Config.standard.limits 3 2 =
        .ok (jacobiNodes Config.standard.limits 3 (Float.ofNat 2) scale) ∧
      Decimal.Holds scale 8) ∧
    ∃ scale, floatRule Config.standard.limits 3 1100 =
        .ok (jacobiNodes Config.standard.limits 3 (Float.ofNat 1100) scale) ∧
      scale.toModel.unpack = .infinity .positive := by
  have hn : 3 < Size.tableLimit := by decide
  obtain ⟨-, -, htwo, -⟩ := floatRule_scale (by decide) hn Config.standard.limits 2
  obtain ⟨-, -, hlarge, -⟩ := floatRule_scale (by decide) hn Config.standard.limits 1100
  obtain ⟨scale, hrule, hscale⟩ := htwo (by decide) (by decide)
  obtain ⟨scale', hrule', hscale'⟩ := hlarge (by decide) (by decide)
  have height : Decimal.Holds scale (2 ^ (3 : ℤ)) := hscale.holds (by decide) (by decide)
  norm_num at height
  exact ⟨by decide, hn, ⟨scale, hrule, height⟩, scale', hrule', hscale'.infinite (by decide)⟩

/-- The largest signed word gives no rule, and the largest word one whose weights are scaled by
one. -/
theorem scale_wraps :
    (1 ≤ 1 ∧ 1 < Size.tableLimit) ∧
    (¬∃ nodes, floatRule Config.standard.limits 1 2147483647 = .ok nodes) ∧
    ∃ scale, floatRule Config.standard.limits 1 4294967295 =
        .ok (jacobiNodes Config.standard.limits 1 (Float.ofNat 4294967295) scale) ∧
      Decimal.Holds scale 1 ∧ ¬IsTwoPower scale (4294967295 + 1) := by
  have hn : 1 < Size.tableLimit := by decide
  have hexponent : weightExponent 4294967295 = .ok 0 := by
    rw [weightExponent_of_gt (by decide)]
    rfl
  obtain ⟨scale, hrule, hscale⟩ :=
    floatRule_of_exponent le_rfl hn Config.standard.limits (by decide) hexponent
  have hone : Decimal.Holds scale 1 := by
    simpa using hscale.holds (by decide) (by decide)
  refine ⟨⟨le_rfl, hn⟩, ?_, scale, hrule, hone, fun h => ?_⟩
  · rintro ⟨nodes, hnodes⟩
    rw [floatRule_of_error le_rfl hn _ (by decide) (weightExponent_of_eq (by decide))] at hnodes
    cases hnodes
  · obtain ⟨m, e, hm, hunpack, -⟩ := hone
    rw [h.infinite (by decide)] at hunpack
    cases hunpack

end Cubature.Gauss
