import HartFloat.Proofs.Arithmetic.IntegerConversion
import HartFloat.Proofs.Pattern.Representation

/-!
# Rounding to integral patterns

The integer to which a pattern is rounded is rounded once more, to the format, and that is exact:
from the binade of the significands' own scale on the values of a format are integers, and below it
no integer needs more digits than a significand has. Nothing but the first rounding is inexact
therefore, and a pattern that comes out of it is rounded to itself. A pattern rounded to zero keeps
its sign.
-/
namespace HartFloat

namespace Format

variable {F : Format}

theorem roundReal_mem_finiteValues (h : F.Regular) (hmax : (F.fractionWidth : ℤ) ≤ F.maxExponent)
    (mode : RoundingMode) {r : ℝ} (hr : r ∈ F.finiteValues) :
    (mode.roundReal r : ℝ) ∈ F.finiteValues := by
  obtain ⟨s, n, k, hn, -, -, hvalue⟩ := exists_of_mem_finiteValues h hr
  rcases lt_or_ge k F.fractionWidth with hk | hk
  · have hsmall : |r| ≤ F.unit := by
      calc |r| = n * F.spacing k := by
            rw [hvalue, abs_mul, abs_mul, Sign.abs_factor, one_mul, Nat.abs_cast,
              abs_of_pos spacing_pos]
        _ ≤ (2 * F.unit : ℕ) * F.spacing k :=
            mul_le_mul_of_nonneg_right (by exact_mod_cast hn.le) spacing_pos.le
        _ = 2 ^ (k + 1) := two_unit_mul_spacing k
        _ ≤ 2 ^ (F.fractionWidth : ℤ) := zpow_le_zpow_right₀ one_le_two (by omega)
        _ = F.unit := by simp [unit]
    have hround := mode.abs_roundReal_le hsmall
    have hu := F.unit_pos
    exact intCast_mem_finiteValues h (by omega) hmax fun _ => by omega
  · obtain ⟨j, hj⟩ := exists_multiple (F := F) hk (s.factor * n)
    have hint : r = j := by
      rw [hvalue]
      simpa [spacing] using hj
    rw [hint] at hr ⊢
    rwa [RoundingMode.roundReal_intCast]

end Format

namespace Pattern

open ExactResult (signed_eq)

variable {F : Format} {x y : Pattern F} {s : Sign} {q : ℚ}

section

variable (h : F.Regular) (hi : F.implicitLeadingBit = true) (hwidth : F.exponentWidth ≤ 63)
  (hmax : (F.fractionWidth : ℤ) ≤ F.maxExponent)

include h hi hwidth hmax

theorem exists_roundToIntegral (hx : x.number? = some (.finite s q)) (c : Context) (exact : Bool) :
    ∃ y, x.roundToIntegral c exact = .ok (y, Flags.when (exact && !q.isInt) Flags.nx) ∧
      y.number? = some (.finite s (c.mode.roundReal q)) := by
  obtain ⟨hinf, -, hsign, hvalue⟩ := number?_finite h hi hx
  simp only [roundToIntegral, isNaN_of_number? h hi hx, hinf, hsign, ratio_eq hwidth, Except.bind,
    hvalue, RoundingMode.roundToInt_eq, RoundingMode.decide_roundReal_ne_eq, Bool.false_eq_true,
    if_false]
  split_ifs with hzero
  · refine ⟨pack F s 0 0, ?_, ?_⟩
    · rw [zero, signed_eq h]
      rfl
    · rw [hzero, Int.cast_zero]
      exact number?_pack_zero h s
  · have hmem : (c.mode.roundReal q : ℝ) ∈ F.finiteValues :=
      Format.roundReal_mem_finiteValues h hmax c.mode (isIn_of_number? hx)
    obtain ⟨y, hof, hy, hint⟩ := exists_ofInteger h hwidth hmem c
    have hny : y.number? = some (.finite y.sign (c.mode.roundReal q)) := by
      rw [number?, if_pos hy, hint]
    have hs : y.sign = s := (isSigned_of_number? hny).sign_unique
      (c.mode.isSigned_roundReal (isSigned_of_number? hx)) (by exact_mod_cast hzero)
    refine ⟨y, ?_, ?_⟩
    · rw [hof, Except.map, Flags.union_empty]
    · rw [hny, hs]

theorem roundToIntegral_of_intCast {n : ℤ} (hy : y.number? = some (.finite s n)) (c : Context)
    (exact : Bool) : y.roundToIntegral c exact = .ok (y, ∅) := by
  obtain ⟨z, hz, hnz⟩ := exists_roundToIntegral h hi hwidth hmax hy c exact
  rw [Rat.cast_intCast, RoundingMode.roundReal_intCast] at hnz
  rw [hz, eq_of_number?_eq h hi hnz hy]
  simp [Rat.isInt, Flags.when]

end

end Pattern

namespace Stepwise

open EnvironmentM Pattern

variable {F : Format}

/-- The integer is the one to which the pattern converts, the result is a pattern of it that has the
sign of the pattern, inexact is raised if that is asked for and the value is no integer, and the
result is rounded to itself in every environment. -/
structure IsIntegralRounding (mode? : Option RoundingMode) (exact : Bool) (x : Pattern F)
    (env : Environment) (n : ℤ) (y : Pattern F) : Prop where
  toInteger_eq : toInteger mode? exact x env =
    .ok (some n, env.raise (Flags.when (exact && !x.fieldValue.isInt) Flags.nx))
  roundsTo : (mode?.getD env.mode).RoundsTo x.fieldValue n
  roundToIntegral_eq : roundToIntegral mode? exact x env =
    .ok (y, env.raise (Flags.when (exact && !x.fieldValue.isInt) Flags.nx))
  finite : y.HasFiniteFields
  fieldValue_eq : y.fieldValue = n
  sign_eq : y.sign = x.sign
  projects : ∀ (mode'? : Option RoundingMode) (exact' : Bool) (env' : Environment),
    roundToIntegral mode'? exact' y env' = .ok (y, env')

/-- A finite pattern is rounded to a pattern of the integer that the direction asks for, if the
exponents of the format fit and its binades reach the significands' own scale. -/
theorem exists_isIntegralRounding (h : F.Regular) (hi : F.implicitLeadingBit = true)
    (hwidth : F.exponentWidth ≤ 63) (hmax : (F.fractionWidth : ℤ) ≤ F.maxExponent)
    (mode? : Option RoundingMode) (exact : Bool) (env : Environment) {x : Pattern F}
    (hx : x.HasFiniteFields) :
    ∃ n y, IsIntegralRounding mode? exact x env n y := by
  have hnx : x.number? = some (.finite x.sign x.fieldValue) := if_pos hx
  obtain ⟨y, hround, hny⟩ :=
    exists_roundToIntegral h hi hwidth hmax hnx (env.toContext.override mode?) exact
  obtain ⟨hy, hsign, hvalue⟩ := number?_eq_finite hny
  have hto : EndsIn (toInteger mode? exact x) env _ := endsIn_toInteger exact x
  rw [toInteger_of_hasFiniteFields hi hwidth hx] at hto
  have hsteps : EndsIn (roundToIntegral mode? exact x) env _ := endsIn_roundToIntegral exact x
  rw [hround] at hsteps
  refine ⟨(mode?.getD env.mode).roundReal x.fieldValue, y,
    { toInteger_eq := hto.eq_ok
      roundsTo := RoundingMode.roundsTo_roundReal _ _
      roundToIntegral_eq := hsteps.eq_ok
      finite := hy
      fieldValue_eq := hvalue
      sign_eq := hsign
      projects := fun mode'? exact' env' => ?_ }⟩
  have hagain : EndsIn (roundToIntegral mode'? exact' y) env' _ := endsIn_roundToIntegral exact' y
  rw [roundToIntegral_of_intCast h hi hwidth hmax hny] at hagain
  exact hagain.eq_ok_of_quiet

/-- In half precision -1/2 is rounded to an integer that is zero. -/
theorem exists_isIntegralRounding_half :
    let F : Format := { exponentWidth := 5, mantissaWidth := 10 }
    let x := pack F .negative 14 0
    F.Regular ∧ F.implicitLeadingBit = true ∧ F.exponentWidth ≤ 63 ∧
      (F.fractionWidth : ℤ) ≤ F.maxExponent ∧ x.HasFiniteFields ∧
        ∃ n y, IsIntegralRounding (some .tiesToEven) true x default n y := by
  intro F x
  have h : F.Regular := ⟨rfl, by decide, by decide⟩
  have hmax : (F.fractionWidth : ℤ) ≤ F.maxExponent := by decide
  have hx : x.HasFiniteFields := by decide +kernel
  exact ⟨h, rfl, by decide, hmax, hx,
    exists_isIntegralRounding h rfl (by decide) hmax (some .tiesToEven) true default hx⟩

/-- With 64 bits of exponent, one is not rounded to an integral pattern. -/
theorem rounding_one_to_integral_may_fail :
    ¬∀ F : Format, F.Regular → F.implicitLeadingBit = true →
      (F.fractionWidth : ℤ) ≤ F.maxExponent → ∀ (mode? : Option RoundingMode) (exact : Bool)
        (env : Environment) (x : Pattern F), x.HasFiniteFields →
          ∃ n y, IsIntegralRounding mode? exact x env n y := by
  intro hall
  let one := pack .wide .positive Format.wide.bias 0
  have hround : roundToIntegral none true one default = .error .exponentTooWide := by
    decide +kernel
  obtain ⟨n, y, hy⟩ := hall .wide Format.regular_wide rfl (by decide +kernel) none true default one
    (by decide +kernel)
  have heq := hy.roundToIntegral_eq
  rw [hround] at heq
  cases heq

/-- The zero keeps the sign. -/
example :
    let F : Format := { exponentWidth := 5, mantissaWidth := 10 }
    roundToIntegral (some .tiesToEven) false (pack F .negative 14 0) default =
      .ok (pack F .negative 0 0, default) := by
  decide +kernel

end Stepwise
end HartFloat
