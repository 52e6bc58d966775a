import HartFloat.Proofs.Arithmetic.ExactNumber
import HartFloat.Proofs.Environment.Steps
import HartFloat.Proofs.Neighbour.Normalization
import HartFloat.Proofs.Pattern.Representation

/-!
# Values that are rounded to themselves

The value of a finite pattern is rounded to that pattern, with no exceptions, in every format that
has at least two bits of exponent and whose exponents fit. With a single bit the exponent fields of
zeros and of infinities leave none for normal numbers, and the least exponent of a normal number
comes after the largest. The patterns below the normal numbers are still there and have their
values, but a value that is rounded is cut in the binade of the least normal numbers, exactly, and
that binade counts as beyond the last: the result is infinite.
-/
namespace HartFloat

namespace Format

variable {F : Format} {c : Context} {v : Exact.Surd}

/-- With a single bit of exponent the least exponent comes after the largest. -/
theorem minExponent_eq_maxExponent_add_one (hw : F.exponentWidth = 1) :
    F.minExponent = F.maxExponent + 1 := by
  simp [minExponent, maxExponent, maxNormalExponent, infinityExponent, bias, hw]

theorem roundToSpacing_intCast_mul (mode : RoundingMode) (e j : ℤ) :
    F.roundToSpacing mode e (j * F.spacing e) = j * F.spacing e := by
  rw [roundToSpacing, mul_div_cancel_right₀ _ spacing_pos.ne', RoundingMode.roundReal_intCast]

/-- A number of least spacings that lies below the normal range is cut exactly there, and that is
beyond the last binade of a format with a single bit of exponent. -/
theorem rounding_of_exponentWidth_eq_one (hs : F.signBit = true) (hw : F.exponentWidth = 1)
    (hc : c.exceptions = .ignoreExactUnderflow) {j : ℤ}
    (hj : v.toReal = j * F.spacing F.minExponent) (hne : v.toReal ≠ 0)
    (hlt : |v.toReal| < 2 ^ F.minExponent) :
    F.rounding c v = (Pattern.pack F v.sign F.infinityExponent 0, Flags.of) := by
  have hv : v.isZero = false := v.isZero_eq_false_iff.mpr hne
  have hcross := minExponent_eq_maxExponent_add_one hw
  have hlog : Int.log 2 |v.toReal| < F.minExponent := (log_lt_minExponent_iff hne).mpr hlt
  have hfloor : v.magnitude.floorLog2 ≤ F.maxExponent := by
    rw [floorLog2_eq hv]
    omega
  have hexact : (F.rounded c.mode v).inexact = false := by
    rw [Bool.eq_false_iff, ne_eq, rounded_eq hv, inexact_roundAt, not_not,
      roundingExponent_of_lt hlog, hj, roundToSpacing_intCast_mul]
  have hflags : F.binadeFlags c v = ∅ := by
    simp [binadeFlags, underflows, hexact, hc, Flags.when]
  have hlast := minExponent_le_exponent_rounded hv c.mode (F := F)
  rw [rounding_of_floorLog2_le hv hs hfloor, if_pos (by omega), hflags, Flags.empty_union]

end Format

namespace Pattern

variable {F : Format} {x : Pattern F} {c : Context} {v : Exact.Surd}

theorem exponent_eq_zero_of_exponentWidth_eq_one (hw : F.exponentWidth = 1)
    (hx : x.HasFiniteFields) : x.exponent = 0 := by
  have hlt := x.exponent_lt
  rw [HasFiniteFields, Format.infinityExponent] at hx
  rw [hw] at hlt hx
  omega

theorem sign_of_toReal_eq (hne : x.fieldValue ≠ 0) (hv : v.toReal = x.fieldValue) :
    v.sign = x.sign := by
  have hreal : (x.fieldValue : ℝ) ≠ 0 := Rat.cast_ne_zero.mpr hne
  have hzero : v.isZero = false := v.isZero_eq_false_iff.mpr (hv ▸ hreal)
  rw [v.sign_eq hzero, hv]
  cases hx : x.sign with
  | positive => exact if_neg (Format.fieldValue_nonneg hx).not_gt
  | negative => exact if_pos (lt_of_le_of_ne (Format.fieldValue_nonpos hx) hreal)

section

variable (hi : F.implicitLeadingBit = true) (hc : c.exceptions = .ignoreExactUnderflow)
  (hx : x.HasFiniteFields) (hne : x.fieldValue ≠ 0) (hv : v.toReal = x.fieldValue)

include hi hc hx hne hv

theorem rounding_fieldValue_eq (h : F.Regular) : F.rounding c v = (x, ∅) := by
  have hround : (F.rounding c v).1 = x := rounding_fieldValue h hi hx hne hv c
  have hraises := F.raises_rounding h c v
  have hexact : (F.rounding c v).2.inexact = false := by
    rw [Bool.eq_false_iff, ne_eq, hraises.inexact, not_not, hround,
      Format.extended?_of_finite hx, hv]
  exact Prod.ext hround (hraises.eq_empty h hc hexact)

theorem rounding_fieldValue_of_exponentWidth_eq_one (hs : F.signBit = true)
    (hw : F.exponentWidth = 1) :
    F.rounding c v = (pack F x.sign F.infinityExponent 0, Flags.of) := by
  have he := exponent_eq_zero_of_exponentWidth_eq_one hw hx
  have hlt := abs_fieldValue_lt hi he
  have hzero : v.toReal ≠ 0 := hv ▸ Rat.cast_ne_zero.mpr hne
  rw [← sign_of_toReal_eq hne hv]
  rw [← hv] at hlt
  exact Format.rounding_of_exponentWidth_eq_one hs hw hc
    (hv.trans (fieldValue_of_exponent_eq_zero he)) hzero hlt

end

end Pattern

namespace Stepwise

open EnvironmentM Pattern

theorem roundRat_of_wide {F : Format} (hs : F.signBit = true) (hwide : 64 ≤ F.exponentWidth)
    (env : Environment) (mode? : Option RoundingMode) {q : ℚ} (hq : q ≠ 0) :
    roundRat F mode? q env = .error .exponentTooWide := by
  have hsteps : EnvironmentM.EndsIn (roundRat F mode? q) env _ := endsIn_roundRat q
  have hlooks : F.looksAtExponent (Exact.Surd.ofRat q) = true := by
    rw [← Bool.not_eq_false, Format.looksAtExponent_eq_false_iff hs, Exact.Surd.toReal_ofRat]
    exact_mod_cast hq
  rw [Format.roundRat, Format.round_eq_error hwide hlooks] at hsteps
  exact hsteps

/-- Where exact underflow is ignored, the value of a finite pattern other than zero is rounded to
the pattern, and nothing is raised, exactly if the format has from two to 63 bits of exponent. With
a single one it overflows. -/
theorem roundRat_fieldValue_iff {F : Format} (hs : F.signBit = true)
    (hi : F.implicitLeadingBit = true) (hw : 1 ≤ F.exponentWidth) (hm : 2 ≤ F.mantissaWidth)
    (env : Environment) (henv : env.exceptions = .ignoreExactUnderflow)
    (mode? : Option RoundingMode) {x : Pattern F} (hx : x.HasFiniteFields)
    (hne : x.fieldValue ≠ 0) :
    (F.exponentWidth ≤ 63 → x.value? = .ok (some x.fieldValue)) ∧
      (roundRat F mode? x.fieldValue env = .ok (x, env) ↔
        2 ≤ F.exponentWidth ∧ F.exponentWidth ≤ 63) ∧
      (F.exponentWidth = 1 → roundRat F mode? x.fieldValue env =
        .ok (pack F x.sign F.infinityExponent 0, env.raise Flags.of)) := by
  have hv := Exact.Surd.toReal_ofRat x.fieldValue
  have hc : (env.toContext.override mode?).exceptions = .ignoreExactUnderflow := henv
  have hsteps (hle : F.exponentWidth ≤ 63) :
      EnvironmentM.EndsIn (roundRat F mode? x.fieldValue) env
        (.ok (F.rounding (env.toContext.override mode?) (Exact.Surd.ofRat x.fieldValue))) := by
    rw [← Format.round_eq hle]
    exact endsIn_roundRat x.fieldValue
  have hone (hw : F.exponentWidth = 1) : roundRat F mode? x.fieldValue env =
      .ok (pack F x.sign F.infinityExponent 0, env.raise Flags.of) := by
    have hends := hsteps (by omega)
    rw [rounding_fieldValue_of_exponentWidth_eq_one hi hc hx hne hv hs hw] at hends
    exact hends.eq_ok
  refine ⟨fun hle => ?_, ⟨fun hsame => ⟨?_, ?_⟩, fun ⟨htwo, hle⟩ => ?_⟩, hone⟩
  · rw [value?_eq_iff_of_hasFiniteFields hx, value_eq_fieldValue hi hx]
    exact ⟨exponentsFit hle x, rfl⟩
  · by_contra hlt
    rw [hone (by omega), Except.ok.injEq, Prod.mk.injEq] at hsame
    exact hx (hsame.1 ▸ exponent_pack_infinity x.sign 0)
  · by_contra hwide
    rw [roundRat_of_wide hs (not_le.mp hwide) env mode? hne] at hsame
    cases hsame
  · have hends := hsteps hle
    rw [rounding_fieldValue_eq hi hc hx hne hv ⟨hs, htwo, hm⟩] at hends
    exact hends.eq_ok_of_quiet

/-- The least number of half precision, and that of a format with a single bit of exponent. -/
theorem roundRat_fieldValue_iff_least :
    let F : Format := { exponentWidth := 5, mantissaWidth := 10 }
    let G : Format := { exponentWidth := 1, mantissaWidth := 2 }
    let x := pack F .positive 0 1
    let y := pack G .negative 0 1
    (x.HasFiniteFields ∧ x.fieldValue ≠ 0 ∧
      roundRat F (some .towardZero) x.fieldValue default = .ok (x, default)) ∧
    (y.HasFiniteFields ∧ y.fieldValue ≠ 0 ∧ y.value? = .ok (some y.fieldValue) ∧
      roundRat G (some .towardZero) y.fieldValue default =
        .ok (pack G .negative G.infinityExponent 0, (default : Environment).raise Flags.of)) := by
  intro F G x y
  have hx : x.HasFiniteFields := by decide +kernel
  have hy : y.HasFiniteFields := by decide +kernel
  have hxne : x.fieldValue ≠ 0 := by decide +kernel
  have hyne : y.fieldValue ≠ 0 := by decide +kernel
  have hsign : y.sign = .negative := by decide +kernel
  obtain ⟨-, hsame, -⟩ := roundRat_fieldValue_iff rfl rfl (by decide) (by decide)
    default rfl (some .towardZero) hx hxne
  obtain ⟨hvalue, -, hone⟩ := roundRat_fieldValue_iff rfl rfl (by decide) (by decide)
    default rfl (some .towardZero) hy hyne
  exact ⟨⟨hx, hxne, hsame.mpr (by decide)⟩, hy, hyne, hvalue (by decide), hsign ▸ hone rfl⟩

/-- The least number of a format with a single bit of exponent is 1/2, which is rounded to
infinity. -/
theorem roundRat_half_overflows :
    ¬∀ F : Format, F.signBit = true → F.implicitLeadingBit = true → 1 ≤ F.exponentWidth →
      2 ≤ F.mantissaWidth → ∀ env : Environment, env.exceptions = .ignoreExactUnderflow →
        ∀ (mode? : Option RoundingMode) (x : Pattern F), x.HasFiniteFields → x.fieldValue ≠ 0 →
          ∃ q, x.value? = .ok (some q) ∧ roundRat F mode? q env = .ok (x, env) := by
  intro hall
  let F : Format := { exponentWidth := 1, mantissaWidth := 2 }
  let x := pack F .positive 0 1
  obtain ⟨q, hq, hround⟩ := hall F rfl rfl (by decide) (by decide) default rfl none x
    (by decide +kernel) (by decide +kernel)
  have hhalf : x.value? = .ok (some (1 / 2)) := by decide +kernel
  obtain rfl : q = 1 / 2 := Option.some.inj (Except.ok.inj (hq.symm.trans hhalf))
  have hinfinite : roundRat F none (1 / 2) default =
      .ok (pack F .positive 1 0, (default : Environment).raise Flags.of) := by
    decide +kernel
  rw [hinfinite] at hround
  revert hround
  decide +kernel

end Stepwise
end HartFloat
