import HartFloat.Proofs.Pattern.Fields
import Mathlib.Data.EReal.Basic

/-!
# The values of a format and correct rounding

The real numbers that finite patterns stand for, extended with both infinities, and what a pattern
has to satisfy to be a number rounded in one of the five directions. Directed rounding is stated
by order and rounding to nearest by distance, without reference to how the result is computed.
-/
namespace HartFloat

instance {F : Format} (x : Pattern F) : Decidable x.HasFiniteFields :=
  inferInstanceAs (Decidable (_ ≠ _))

/-- The number of a sign that is larger in magnitude than all others. -/
noncomputable def Sign.infinity : Sign → EReal
  | positive => ⊤
  | negative => ⊥

/-- The extended real number that a pattern stands for, which NaNs do not have. -/
noncomputable def Pattern.extended? {F : Format} (x : Pattern F) : Option EReal :=
  if x.HasFiniteFields then some ((x.fieldValue : ℝ) : EReal)
  else if x.mantissa = 0 then some x.sign.infinity
  else none

namespace Format

variable (F : Format)

def finiteValues : Set ℝ := {r | ∃ x : Pattern F, x.HasFiniteFields ∧ (x.fieldValue : ℝ) = r}

def extendedValues : Set EReal := insert ⊥ (insert ⊤ ((↑) '' F.finiteValues))

/-- The magnitude from which on numbers are nearer to the next power of two than to any finite
value, or as near. -/
noncomputable def overflowThreshold : ℝ :=
  (2 - 2 ^ (-(F.fractionWidth + 1 : ℤ))) * 2 ^ F.maxExponent

/-- The distance between neighbouring values in the binade of the exponent. -/
noncomputable def spacing (e : ℤ) : ℝ := 2 ^ (e - F.fractionWidth)

/-- The largest finite value. -/
noncomputable def largest : ℝ := (2 * F.unit - 1) * F.spacing F.maxExponent

/-- The pattern is as near to the number as any finite value; of two equally near values `tie`
decides against the other one. Beyond the threshold the result is infinite. -/
def RoundsToNearest (v : ℝ) (y : Pattern F) (tie : ℝ → Prop) : Prop :=
  if F.overflowThreshold ≤ |v| then y.extended? = some (if 0 ≤ v then ⊤ else ⊥)
  else y.HasFiniteFields ∧ ∀ r ∈ F.finiteValues, |y.fieldValue - v| ≤ |r - v| ∧
    (|r - v| = |y.fieldValue - v| → r ≠ y.fieldValue → tie r)

/-- The pattern is the number rounded in the given direction. -/
def Rounds (mode : RoundingMode) (v : ℝ) (y : Pattern F) : Prop :=
  match mode with
  | .towardNegative =>
    ∃ z, y.extended? = some z ∧ IsGreatest {w | w ∈ F.extendedValues ∧ w ≤ (v : EReal)} z
  | .towardPositive =>
    ∃ z, y.extended? = some z ∧ IsLeast {w | w ∈ F.extendedValues ∧ (v : EReal) ≤ w} z
  | .towardZero =>
    y.HasFiniteFields ∧ IsGreatest {a | (∃ r ∈ F.finiteValues, |r| = a) ∧ a ≤ |v|} |y.fieldValue|
  | .tiesToEven => F.RoundsToNearest v y fun _ => Even y.mantissa
  | .tiesToAway => F.RoundsToNearest v y fun r => |r| < |(y.fieldValue : ℝ)|

/-- What is demanded of the pattern to which a number is rounded. -/
structure IsRounding (mode : RoundingMode) (v : ℝ) (y : Pattern F) : Prop where
  rounds : F.Rounds mode v y
  sign_of_pos : 0 < v → y.sign = .positive
  sign_of_neg : v < 0 → y.sign = .negative
  of_zero : v = 0 → y = Pattern.positiveZero F
  normalized : F.implicitLeadingBit = false → y.IsNormalized

variable {F}

theorem spacing_pos {e : ℤ} : 0 < F.spacing e := by
  unfold spacing
  positivity

theorem unit_mul_spacing (e : ℤ) : (F.unit : ℝ) * F.spacing e = 2 ^ e := by
  unfold unit spacing
  push_cast
  rw [← zpow_natCast, ← zpow_add₀ two_ne_zero]
  congr 1
  omega

theorem two_unit_mul_spacing (e : ℤ) : (2 * F.unit : ℕ) * F.spacing e = 2 ^ (e + 1) := by
  push_cast
  rw [mul_assoc, unit_mul_spacing, zpow_add_one₀ two_ne_zero, mul_comm]

theorem largest_eq : F.largest = (2 * F.unit - 1 : ℕ) * F.spacing F.maxExponent := by
  have hu := F.unit_pos
  rw [largest, Nat.cast_sub (by omega)]
  push_cast
  rfl

theorem exists_of_mem_finiteValues (h : F.Regular) {r : ℝ} (hr : r ∈ F.finiteValues) :
    ∃ (s : Sign) (n : ℕ) (k : ℤ), n < 2 * F.unit ∧ F.minExponent ≤ k ∧ k ≤ F.maxExponent ∧
      r = s.factor * n * F.spacing k := by
  obtain ⟨x, hx, rfl⟩ := hr
  have hexp := x.exponent_lt
  rw [Format.lt_two_pow_iff] at hexp
  rw [Pattern.HasFiniteFields] at hx
  rw [h.infinityExponent_eq] at hexp hx
  refine ⟨x.sign, x.fieldSignificand, max (x.exponent : ℤ) 1 - F.bias,
    x.fieldSignificand_lt, ?_, ?_, ?_⟩
  · unfold minExponent
    omega
  · rw [h.maxExponent_eq]
    have := h.bias_pos
    omega
  · unfold Pattern.fieldValue spacing
    push_cast
    rfl

theorem spacing_add_one (e : ℤ) : F.spacing (e + 1) = 2 * F.spacing e := by
  rw [spacing, spacing, show e + 1 - F.fractionWidth = e - F.fractionWidth + 1 by ring,
    zpow_add_one₀ two_ne_zero, mul_comm]

theorem significand_mem_finiteValues (h : F.Regular) (s : Sign) {n : ℕ} {k : ℤ}
    (hn : n < 2 * F.unit) (hlo : F.minExponent ≤ k) (hhi : k ≤ F.maxExponent) :
    s.factor * n * F.spacing k ∈ F.finiteValues := by
  have hmax := h.maxExponent_eq
  have hmaxField := h.maxNormalExponent_eq
  obtain ⟨d, rfl⟩ := Int.le.dest hlo
  unfold minExponent at hhi ⊢
  -- A significand below the unit belongs to the least binade, so it is doubled until it is there.
  induction d generalizing n with
  | zero =>
    refine ⟨Pattern.ofSignificand F s 1 n, Pattern.hasFiniteFields_ofSignificand h s (by omega), ?_⟩
    rw [Pattern.fieldValue_ofSignificand h s le_rfl (by omega) hn (fun _ => rfl), spacing]
    push_cast
    rw [add_zero]
  | succ d ih =>
    by_cases hsub : n < F.unit
    · have hdouble : s.factor * (n : ℝ) * F.spacing (1 - F.bias + (d + 1 : ℕ)) =
          s.factor * (2 * n : ℕ) * F.spacing (1 - F.bias + d) := by
        rw [Nat.cast_add_one, ← add_assoc, spacing_add_one]
        push_cast
        ring
      rw [hdouble]
      exact ih (by omega) (by unfold minExponent; omega) (by omega)
    · refine ⟨Pattern.ofSignificand F s (d + 2) n,
        Pattern.hasFiniteFields_ofSignificand h s (by omega), ?_⟩
      rw [Pattern.fieldValue_ofSignificand h s (by omega) (by omega) hn
          (fun hlt => absurd hlt hsub), spacing,
        show ((d + 2 : ℕ) : ℤ) - F.bias = 1 - F.bias + (d + 1 : ℕ) by push_cast; ring]
      push_cast
      rfl

theorem abs_le_largest (h : F.Regular) {r : ℝ} (hr : r ∈ F.finiteValues) : |r| ≤ F.largest := by
  obtain ⟨s, n, k, hn, -, hk, rfl⟩ := exists_of_mem_finiteValues h hr
  have hn' : n ≤ 2 * F.unit - 1 := by omega
  have hpow : F.spacing k ≤ F.spacing F.maxExponent :=
    zpow_le_zpow_right₀ one_le_two (by omega)
  rw [abs_mul, abs_mul, Sign.abs_factor, one_mul, Nat.abs_cast, abs_of_pos spacing_pos, largest_eq]
  exact mul_le_mul (by exact_mod_cast hn') hpow spacing_pos.le (Nat.cast_nonneg _)

theorem fieldValue_maxMantissa (h : F.Regular) (s : Sign) :
    ((Pattern.pack F s F.maxNormalExponent F.maxMantissa).fieldValue : ℝ) =
      s.factor * F.largest := by
  have hu := F.unit_pos
  have hbias := h.bias_pos
  have hmax := h.maxNormalExponent_eq
  rw [Pattern.pack_maxMantissa h, Pattern.fieldValue_ofSignificand h s (by omega) le_rfl (by omega)
    (by omega), largest_eq, spacing, maxExponent]
  push_cast
  rw [mul_assoc]

theorem hasFiniteFields_maxMantissa (h : F.Regular) (s : Sign) :
    (Pattern.pack F s F.maxNormalExponent F.maxMantissa).HasFiniteFields := by
  rw [Pattern.pack_maxMantissa h]
  exact Pattern.hasFiniteFields_ofSignificand h s le_rfl

theorem isGreatest_largest (h : F.Regular) : IsGreatest F.finiteValues F.largest := by
  refine ⟨⟨_, hasFiniteFields_maxMantissa h .positive, ?_⟩, fun r hr => ?_⟩
  · rw [fieldValue_maxMantissa h, Sign.factor, Int.cast_one, one_mul]
  · exact (le_abs_self r).trans (abs_le_largest h hr)

theorem largest_lt : F.largest < 2 ^ (F.maxExponent + 1) := by
  have hu := F.unit_pos
  rw [largest_eq, ← two_unit_mul_spacing]
  exact mul_lt_mul_of_pos_right (by exact_mod_cast (by omega : 2 * F.unit - 1 < 2 * F.unit))
    spacing_pos

theorem two_zpow_le_largest : (2 : ℝ) ^ F.maxExponent ≤ F.largest := by
  have hu := F.unit_pos
  rw [largest_eq, ← unit_mul_spacing]
  exact mul_le_mul_of_nonneg_right (by exact_mod_cast (by omega : F.unit ≤ 2 * F.unit - 1))
    spacing_pos.le

theorem largest_pos : 0 < F.largest :=
  (by positivity : (0 : ℝ) < 2 ^ F.maxExponent).trans_le two_zpow_le_largest

/-- The threshold lies half a unit in the last place above the largest finite value. -/
theorem overflowThreshold_eq :
    F.overflowThreshold = (2 * F.unit - 1 / 2) * F.spacing F.maxExponent := by
  have hunit := F.unit_mul_spacing F.maxExponent
  have hhalf : (2 : ℝ) ^ (-(F.fractionWidth + 1 : ℤ)) * 2 ^ F.maxExponent =
      1 / 2 * F.spacing F.maxExponent := by
    rw [← zpow_add₀ two_ne_zero, show -(F.fractionWidth + 1 : ℤ) + F.maxExponent =
      F.maxExponent - F.fractionWidth - 1 by ring, zpow_sub_one₀ two_ne_zero, spacing]
    ring
  unfold overflowThreshold
  rw [sub_mul, hhalf, ← hunit]
  ring

theorem overflowThreshold_le : F.overflowThreshold ≤ 2 ^ (F.maxExponent + 1) := by
  rw [overflowThreshold_eq, ← two_unit_mul_spacing]
  refine mul_le_mul_of_nonneg_right ?_ spacing_pos.le
  push_cast
  linarith

theorem largest_lt_overflowThreshold : F.largest < F.overflowThreshold := by
  rw [overflowThreshold_eq, largest]
  refine mul_lt_mul_of_pos_right ?_ spacing_pos
  linarith

end Format

namespace Pattern

variable {F : Format} {x : Pattern F}

theorem fieldValue_of_exponent_eq_zero (he : x.exponent = 0) :
    (x.fieldValue : ℝ) = (x.sign.factor * x.mantissa : ℤ) * F.spacing F.minExponent := by
  simp [fieldValue, fieldSignificand, he, Format.spacing, Format.minExponent]

/-- With an implied leading bit, a value without an exponent field is below the least normal one. -/
theorem abs_fieldValue_lt (hi : F.implicitLeadingBit = true) (he : x.exponent = 0) :
    |(x.fieldValue : ℝ)| < 2 ^ F.minExponent := by
  have hm : x.mantissa < F.unit := by
    have hlt := x.mantissa_lt
    rwa [Format.unit, Format.fractionWidth, hi]
  rw [fieldValue_of_exponent_eq_zero he, ← Format.unit_mul_spacing, abs_mul,
    abs_of_pos Format.spacing_pos]
  push_cast
  rw [abs_mul, Sign.abs_factor, one_mul, Nat.abs_cast]
  exact mul_lt_mul_of_pos_right (by exact_mod_cast hm) Format.spacing_pos

end Pattern
end HartFloat
