import HartFloat.Proofs.Arithmetic.ExactNumber
import HartFloat.Proofs.Pattern.Representation

/-!
# Conversion to a wider format

A format with no fewer exponents and no fewer places has every number of the narrower one: a
significand is filled up with zeros, and its binade is among those of the wider format, where also
the subnormal numbers find one. A conversion into the wider format is therefore exact, and so is the
way back, since the number that arrives there is still one of the narrower format. There it has a
single pattern, the one that it came from.
-/
namespace HartFloat

namespace Format

variable {S D : Format}

theorem bias_le_bias (hexp : S.exponentWidth ≤ D.exponentWidth) : S.bias ≤ D.bias := by
  have hpow : 2 ^ (S.exponentWidth - 1) ≤ 2 ^ (D.exponentWidth - 1) :=
    Nat.pow_le_pow_right two_pos (by omega)
  exact Nat.sub_le_sub_right hpow 1

theorem fractionWidth_le_fractionWidth (hiS : S.implicitLeadingBit = true)
    (hiD : D.implicitLeadingBit = true) (hmantissa : S.mantissaWidth ≤ D.mantissaWidth) :
    S.fractionWidth ≤ D.fractionWidth := by
  simpa [fractionWidth, hiS, hiD] using hmantissa

theorem spacing_eq_two_pow_mul {d : ℕ} (hd : D.fractionWidth = S.fractionWidth + d) (k : ℤ) :
    S.spacing k = 2 ^ d * D.spacing k := by
  rw [spacing, spacing, hd, ← zpow_natCast, ← zpow_add₀ two_ne_zero]
  congr 1
  push_cast
  ring

theorem finiteValues_subset (hS : S.Regular) (hD : D.Regular) (hbias : S.bias ≤ D.bias)
    (hfraction : S.fractionWidth ≤ D.fractionWidth) : S.finiteValues ⊆ D.finiteValues := by
  intro r hr
  obtain ⟨s, n, k, hn, hlo, hhi, rfl⟩ := exists_of_mem_finiteValues hS hr
  obtain ⟨d, hd⟩ := Nat.exists_eq_add_of_le hfraction
  have hunit : D.unit = 2 ^ d * S.unit := by rw [unit, unit, hd, pow_add, mul_comm]
  have hsignificand : 2 ^ d * n < 2 * D.unit := by
    calc 2 ^ d * n < 2 ^ d * (2 * S.unit) := Nat.mul_lt_mul_of_pos_left hn (Nat.two_pow_pos d)
      _ = 2 * D.unit := by rw [hunit]; ring
  have hbinade : D.minExponent ≤ k ∧ k ≤ D.maxExponent := by
    rw [hS.maxExponent_eq] at hhi
    rw [hD.maxExponent_eq]
    unfold minExponent at hlo ⊢
    omega
  have hmem := significand_mem_finiteValues hD s hsignificand hbinade.1 hbinade.2
  have hvalue : s.factor * (n : ℝ) * S.spacing k =
      s.factor * ((2 ^ d * n : ℕ) : ℝ) * D.spacing k := by
    rw [spacing_eq_two_pow_mul hd]
    push_cast
    ring
  rwa [hvalue]

end Format

theorem Number.IsIn.of_subset {S D : Format} {a : Number} (ha : a.IsIn S)
    (hsub : S.finiteValues ⊆ D.finiteValues) : a.IsIn D := by
  cases a with
  | infinite s => trivial
  | finite s q => exact hsub ha

namespace Pattern

open ExactResult

variable {S D : Format} {x : Pattern S} {a : Number}

theorem convert_eq (hS : S.Regular) (hi : S.implicitLeadingBit = true)
    (hwidth : S.exponentWidth ≤ 63) (hD : D.Regular) (hx : x.number? = some a) (c : Context) :
    x.convert D c = a.exact.outcome D c := by
  rw [convert, isNaN_of_number? hS hi hx, if_neg Bool.false_ne_true]
  cases a with
  | infinite s =>
    obtain ⟨hinf, -, rfl⟩ := number?_infinite hS hi hx
    rw [hinf, if_pos rfl, Number.exact, outcome_infinite hD]
  | finite s q =>
    obtain ⟨hinf, hzero, rfl, rfl⟩ := number?_finite hS hi hx
    rw [hinf, if_neg Bool.false_ne_true, hzero, Number.exact]
    simp only [decide_eq_true_eq]
    split_ifs
    · rw [outcome_zero hD]
    · rw [ratio_eq hwidth]
      rfl

theorem isOutcome_convert (hS : S.Regular) (hi : S.implicitLeadingBit = true)
    (hwidth : S.exponentWidth ≤ 63) (hD : D.Regular) (hwidth' : D.exponentWidth ≤ 63)
    (hx : x.number? = some a) (hin : a.IsIn D) (c : Context) : a.IsOutcome c (x.convert D c) := by
  rw [convert_eq hS hi hwidth hD hx]
  exact Number.isOutcome_exact hD hwidth' (isSigned_of_number? hx) hin c

end Pattern

namespace Environment

open Pattern

variable {S D : Format}

/-- The conversion, run in the environment, ends with a pattern of the same number and raises
nothing where exact underflow is ignored. -/
def ConvertsExactly (env : Environment) (mode? : Option RoundingMode) (x : Pattern S)
    (y : Pattern D) : Prop :=
  ∃ a f, x.number? = some a ∧ y.number? = some a ∧
    env.run mode? (fun c => x.convert D c) = .ok (y, env.raise f) ∧
    (env.exceptions = .ignoreExactUnderflow → f = ∅)

theorem exists_convertsExactly (hS : S.Regular) (hi : S.implicitLeadingBit = true)
    (hwidth : S.exponentWidth ≤ 63) (hD : D.Regular) (hwidth' : D.exponentWidth ≤ 63)
    {x : Pattern S} {a : Number} (hx : x.number? = some a) (hin : a.IsIn D) (env : Environment)
    (mode? : Option RoundingMode) :
    ∃ y : Pattern D, y.number? = some a ∧ env.ConvertsExactly mode? x y := by
  obtain ⟨y, f, hrun, hy, hf⟩ :=
    exists_run_of_isOutcome (isOutcome_convert hS hi hwidth hD hwidth' hx hin) env mode?
  exact ⟨y, hy, a, f, hx, hy, hrun, hf⟩

/-- In all rounding directions a pattern other than a NaN is converted exactly to a wider format
whose exponents fit, and the conversion back is exact and gives the pattern again. -/
theorem run_convert_widens (hS : S.Regular) (hD : D.Regular)
    (hiS : S.implicitLeadingBit = true) (hiD : D.implicitLeadingBit = true)
    (hexp : S.exponentWidth ≤ D.exponentWidth) (hmantissa : S.mantissaWidth ≤ D.mantissaWidth)
    (hwidth : D.exponentWidth ≤ 63) (env env' : Environment) (mode? mode'? : Option RoundingMode)
    {x : Pattern S} (hx : x.isNaN = false) :
    ∃ y : Pattern D, env.ConvertsExactly mode? x y ∧ env'.ConvertsExactly mode'? y x := by
  obtain ⟨a, ha⟩ := exists_number?_of_not_isNaN hS hx
  have hin := isIn_of_number? ha
  have hwide : a.IsIn D := hin.of_subset (Format.finiteValues_subset hS hD
    (Format.bias_le_bias hexp) (Format.fractionWidth_le_fractionWidth hiS hiD hmantissa))
  obtain ⟨y, hy, hto⟩ :=
    exists_convertsExactly hS hiS (hexp.trans hwidth) hD hwidth ha hwide env mode?
  obtain ⟨x', hx', hback⟩ :=
    exists_convertsExactly hD hiD hwidth hS (hexp.trans hwidth) hy hin env' mode'?
  obtain rfl := eq_of_number?_eq hS hiS hx' ha
  exact ⟨y, hto, hback⟩

/-- The least subnormal number in half precision is a normal one in single precision. -/
theorem run_convert_widens_half :
    let S : Format := { exponentWidth := 5, mantissaWidth := 10 }
    let x := pack S .negative 0 1
    S.Regular ∧ Format.binary32.Regular ∧ S.exponentWidth ≤ Format.binary32.exponentWidth ∧
      S.mantissaWidth ≤ Format.binary32.mantissaWidth ∧ Format.binary32.exponentWidth ≤ 63 ∧
      x.isNaN = false ∧
      ∃ y : Pattern .binary32, (default : Environment).ConvertsExactly (some .towardPositive) x y ∧
        (default : Environment).ConvertsExactly (some .towardNegative) y x := by
  intro S x
  have hS : S.Regular := ⟨rfl, by decide, by decide⟩
  have hx : x.isNaN = false := by decide +kernel
  exact ⟨hS, Format.regular_binary32, by decide, by decide, by decide, hx,
    run_convert_widens hS Format.regular_binary32 rfl rfl (by decide) (by decide) (by decide)
      default default (some .towardPositive) (some .towardNegative) hx⟩

/-- With 64 bits of exponent in the wider format, one cannot be converted to it. -/
theorem converting_one_may_fail :
    ¬∀ S D : Format, S.Regular → D.Regular → S.implicitLeadingBit = true →
      D.implicitLeadingBit = true → S.exponentWidth ≤ D.exponentWidth →
      S.mantissaWidth ≤ D.mantissaWidth → ∀ (env env' : Environment)
        (mode? mode'? : Option RoundingMode) (x : Pattern S), x.isNaN = false →
          ∃ y : Pattern D, env.ConvertsExactly mode? x y ∧ env'.ConvertsExactly mode'? y x := by
  intro h
  let S : Format := { exponentWidth := 5, mantissaWidth := 2 }
  let one := pack S .positive 15 0
  have hone : one.isNaN = false := by decide +kernel
  have hconvert : (default : Environment).run none (fun c => one.convert .wide c) =
      .error .exponentTooWide := by
    decide +kernel
  obtain ⟨y, ⟨a, f, -, -, hrun, -⟩, -⟩ := h S .wide ⟨rfl, by decide, by decide⟩
    Format.regular_wide rfl rfl (by decide) (by decide) default default none none one hone
  rw [hconvert] at hrun
  cases hrun

end Environment
end HartFloat
