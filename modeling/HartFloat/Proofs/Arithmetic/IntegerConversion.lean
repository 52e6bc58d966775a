import HartFloat.Proofs.Arithmetic.IntegerRounding
import HartFloat.Proofs.Environment.Steps
import HartFloat.Proofs.NaN.Canonical
import HartFloat.Proofs.Neighbour.Normalization

/-!
# Conversions between patterns and integers

A pattern converts to an integer type if it is finite and the type holds the integer that the
direction asks for. The range is judged after rounding, so that whether a value just outside it
converts depends on the direction, and what was inexact about the rounding is taken back where there
is no result. An integer with no more digits than a significand, and the next power of two, are
values of the format if its binades reach that far. Such an integer converts to a pattern and back
exactly.
-/
namespace HartFloat

namespace Format

variable {F : Format} {n : ℤ}

/-- In the binade of the significands' own scale the multiples of the spacing are the integers. -/
theorem intCast_mem_finiteValues (h : F.Regular) (hn : |n| ≤ (2 * F.unit : ℕ))
    (hmax : (F.fractionWidth : ℤ) ≤ F.maxExponent)
    (hlast : (F.fractionWidth : ℤ) = F.maxExponent → |n| < (2 * F.unit : ℕ)) :
    (n : ℝ) ∈ F.finiteValues := by
  have hmin : F.minExponent ≤ F.fractionWidth := h.minExponent_le.trans (Int.natCast_nonneg _)
  have hmem := multiple_mem_finiteValues_of_le h hn hmin hmax hlast
  simpa [spacing] using hmem

end Format

namespace Pattern

variable {F : Format} {x : Pattern F}

theorem isFinite_iff_hasFiniteFields (hw : 2 ≤ F.exponentWidth) :
    x.isFinite = true ↔ x.HasFiniteFields := by
  constructor
  · intro hx
    obtain ⟨hnan, hinf⟩ := isFinite_iff.mp hx
    exact (exponent_lt_of_finite hnan hinf (infinityExponent_pos_iff.mpr (by omega))).ne
  · exact isFinite_of_hasFiniteFields

theorem toInteger_of_hasFiniteFields (hi : F.implicitLeadingBit = true)
    (hwidth : F.exponentWidth ≤ 63) (hx : x.HasFiniteFields) (c : Context) (exact : Bool) :
    x.toInteger c exact = .ok (some (c.mode.roundReal x.fieldValue),
      Flags.when (exact && !x.fieldValue.isInt) Flags.nx) := by
  rw [toInteger, if_pos (isFinite_of_hasFiniteFields hx), ratio_eq hwidth,
    value_eq_fieldValue hi hx, Except.map, RoundingMode.roundToInt_eq,
    RoundingMode.decide_roundReal_ne_eq]

theorem toIntegerType_eq (hi : F.implicitLeadingBit = true) (hw : 2 ≤ F.exponentWidth)
    (hwidth : F.exponentWidth ≤ 63) (c : Context) (exact : Bool) (t : IntegerType) :
    x.toIntegerType c exact t = .ok
      (if x.HasFiniteFields ∧ t.holds (c.mode.roundReal x.fieldValue) = true then
        (some (c.mode.roundReal x.fieldValue), Flags.when (exact && !x.fieldValue.isInt) Flags.nx)
      else (none, Flags.nv)) := by
  by_cases hx : x.HasFiniteFields
  · rw [toIntegerType, toInteger_of_hasFiniteFields hi hwidth hx]
    simp only [hx, true_and, Except.map]
  · have hfinite : x.isFinite = false := by
      rw [Bool.eq_false_iff, ne_eq, isFinite_iff_hasFiniteFields hw]
      exact hx
    rw [toIntegerType_of_not_isFinite hfinite, if_neg fun hholds => hx hholds.1]

theorem exists_ofInteger (h : F.Regular) (hwidth : F.exponentWidth ≤ 63) {n : ℤ}
    (hn : (n : ℝ) ∈ F.finiteValues) (c : Context) :
    ∃ y, ofInteger F c n = .ok (y, ∅) ∧ y.HasFiniteFields ∧ y.fieldValue = n := by
  obtain ⟨y, f, hof, hflags, hinexact⟩ := flags_ofInteger h hwidth c (Format.abs_le_largest h hn)
  obtain rfl : f = ∅ := hflags.resolve_right fun hnx => hinexact.mp hnx hn
  have hround := F.isRounding_rounding h c (Exact.Surd.ofInt n)
  rw [Exact.Surd.toReal_ofInt, (Format.round_eq_ok_iff.mp hof).1] at hround
  obtain ⟨hfinite, hvalue⟩ := Format.fieldValue_of_extended? (hround.extended?_eq h hn)
  exact ⟨y, hof, hfinite, by exact_mod_cast hvalue⟩

end Pattern

namespace Stepwise

open EnvironmentM Pattern

variable {F : Format}

section

variable {x : Pattern F} {mode? : Option RoundingMode} {exact : Bool} {t : IntegerType}
  {env : Environment}

theorem toIntegerType_eq (hi : F.implicitLeadingBit = true) (hw : 2 ≤ F.exponentWidth)
    (hwidth : F.exponentWidth ≤ 63) :
    toIntegerType mode? exact t x env =
      if x.HasFiniteFields ∧ t.holds ((mode?.getD env.mode).roundReal x.fieldValue) = true then
        .ok (some ((mode?.getD env.mode).roundReal x.fieldValue),
          env.raise (Flags.when (exact && !x.fieldValue.isInt) Flags.nx))
      else .ok (none, env.raise Flags.nv) := by
  have hsteps : EndsIn (toIntegerType mode? exact t x) env _ := endsIn_toIntegerType exact t x
  rw [EndsIn, Pattern.toIntegerType_eq hi hw hwidth, apply_ite Except.ok, apply_ite (Except.map _)]
    at hsteps
  exact hsteps

/-- The conversion has a result exactly where the pattern is finite and the type holds the integer
that the direction asks for; it then raises inexact if it was asked to and the value is no integer.
In all other cases the invalid operation is all that it adds to the environment. -/
structure ConvertsToInteger (mode? : Option RoundingMode) (exact : Bool) (t : IntegerType)
    (x : Pattern F) (env : Environment) : Prop where
  some_iff : ∀ n : ℤ, (∃ env', toIntegerType mode? exact t x env = .ok (some n, env')) ↔
    x.HasFiniteFields ∧ (mode?.getD env.mode).RoundsTo x.fieldValue n ∧ t.holds n = true
  of_some : ∀ (n : ℤ) env', toIntegerType mode? exact t x env = .ok (some n, env') →
    env' = env.raise (Flags.when (exact && !x.fieldValue.isInt) Flags.nx)
  none_of_not : (¬∃ (n : ℤ) (env' : Environment),
      toIntegerType mode? exact t x env = .ok (some n, env')) →
    toIntegerType mode? exact t x env = .ok (none, env.raise Flags.nv)

theorem convertsToInteger (hi : F.implicitLeadingBit = true) (hw : 2 ≤ F.exponentWidth)
    (hwidth : F.exponentWidth ≤ 63) : ConvertsToInteger mode? exact t x env where
  some_iff n := by
    rw [toIntegerType_eq hi hw hwidth, RoundingMode.roundsTo_iff]
    constructor
    · rintro ⟨env', henv⟩
      split_ifs at henv with hholds
      · simp only [Except.ok.injEq, Prod.mk.injEq, Option.some.injEq] at henv
        exact ⟨hholds.1, henv.1.symm, henv.1 ▸ hholds.2⟩
      · simp at henv
    · rintro ⟨hx, rfl, hholds⟩
      exact ⟨_, if_pos ⟨hx, hholds⟩⟩
  of_some n env' henv := by
    rw [toIntegerType_eq hi hw hwidth] at henv
    split_ifs at henv
    · simp only [Except.ok.injEq, Prod.mk.injEq] at henv
      exact henv.2.symm
    · simp at henv
  none_of_not hnone := by
    rw [toIntegerType_eq hi hw hwidth] at hnone ⊢
    split_ifs at hnone ⊢
    · exact absurd ⟨_, _, rfl⟩ hnone
    · rfl

end

/-- The integer converts to a pattern of its value, and that converts to every type that holds the
integer, in any two environments and directions; neither conversion raises anything. -/
def RoundTrips (F : Format) (n : ℤ) : Prop :=
  ∀ (mode? : Option RoundingMode) (env : Environment), ∃ x : Pattern F,
    ofInteger F mode? n env = .ok (x, env) ∧ x.HasFiniteFields ∧ x.fieldValue = n ∧
    ∀ (mode'? : Option RoundingMode) (exact : Bool) (t : IntegerType) (env' : Environment),
      t.holds n = true → toIntegerType mode'? exact t x env' = .ok (some n, env')

theorem roundTrips (h : F.Regular) (hi : F.implicitLeadingBit = true)
    (hwidth : F.exponentWidth ≤ 63) {n : ℤ} (hn : (n : ℝ) ∈ F.finiteValues) :
    RoundTrips F n := by
  intro mode? env
  obtain ⟨x, hof, hx, hvalue⟩ := exists_ofInteger h hwidth hn (env.toContext.override mode?)
  refine ⟨x, ?_, hx, hvalue, fun mode'? exact t env' hholds => ?_⟩
  · have hsteps : EndsIn (ofInteger F mode? n) env (.ok (x, ∅)) := by
      rw [← hof]
      exact endsIn_ofInteger n
    exact hsteps.eq_ok_of_quiet
  · have hint : x.fieldValue.isInt = true := by
      simp [hvalue, Rat.isInt]
    have hround (mode : RoundingMode) : mode.roundReal x.fieldValue = n := by
      rw [hvalue, Rat.cast_intCast, RoundingMode.roundReal_intCast]
    rw [toIntegerType_eq hi h.two_le_exponentWidth hwidth, hround, if_pos ⟨hx, hholds⟩, hint]
    simp [Flags.when]

/-- In a format whose exponents fit, conversions to integers round as asked and judge the range
afterwards; integers up to the power of two that follows the largest significand convert to patterns
and back, if the binades of the format reach that power. -/
theorem converts_to_and_from_integers {F : Format} (hi : F.implicitLeadingBit = true)
    (hw : 2 ≤ F.exponentWidth) (hwidth : F.exponentWidth ≤ 63) (hm : 2 ≤ F.mantissaWidth) :
    (∀ (mode? : Option RoundingMode) (exact : Bool) (t : IntegerType) (x : Pattern F)
      (env : Environment), ConvertsToInteger mode? exact t x env) ∧
    (F.signBit = true → (F.fractionWidth : ℤ) + 1 ≤ F.maxExponent →
      ∀ n : ℤ, |n| ≤ 2 ^ (F.fractionWidth + 1) → RoundTrips F n) := by
  refine ⟨fun _ _ _ _ _ => convertsToInteger hi hw hwidth, fun hs hmax n hn => ?_⟩
  have h : F.Regular := ⟨hs, hw, hm⟩
  have hle : |n| ≤ (2 * F.unit : ℕ) := by
    rw [Format.unit]
    push_cast
    rwa [← pow_succ']
  refine roundTrips h hi hwidth (Format.intCast_mem_finiteValues h hle (by omega) fun hlast => ?_)
  omega

/-- In half precision, whose greatest exponent is 15: -1/2 does not convert to an unsigned type if
ties go away from zero, and -2048 converts to a pattern and back. -/
theorem converts_to_and_from_integers_half :
    let F : Format := { exponentWidth := 5, mantissaWidth := 10 }
    (F.implicitLeadingBit = true ∧ 2 ≤ F.exponentWidth ∧ F.exponentWidth ≤ 63 ∧
        2 ≤ F.mantissaWidth) ∧
      ConvertsToInteger (some .tiesToAway) true (.unsigned 8) (pack F .negative 14 0) default ∧
      (F.fractionWidth : ℤ) + 1 ≤ F.maxExponent ∧ |(-2048 : ℤ)| ≤ 2 ^ (F.fractionWidth + 1) ∧
        RoundTrips F (-2048) := by
  intro F
  obtain ⟨hto, hback⟩ :=
    converts_to_and_from_integers (F := F) rfl (by decide) (by decide) (by decide)
  have hmax : (F.fractionWidth : ℤ) + 1 ≤ F.maxExponent := by decide
  have hn : |(-2048 : ℤ)| ≤ 2 ^ (F.fractionWidth + 1) := by decide
  exact ⟨⟨rfl, by decide, by decide, by decide⟩,
    hto (some .tiesToAway) true (.unsigned 8) _ default, hmax, hn, hback rfl hmax (-2048) hn⟩

/-- With 64 bits of exponent the integer one converts to no pattern, and no pattern converts to it
if there are more. -/
theorem converting_integer_one_may_fail :
    (¬∀ F : Format, F.implicitLeadingBit = true → 2 ≤ F.exponentWidth → 2 ≤ F.mantissaWidth →
      ∀ (mode? : Option RoundingMode) (exact : Bool) (t : IntegerType) (x : Pattern F)
        (env : Environment), ConvertsToInteger mode? exact t x env) ∧
    ¬∀ F : Format, F.Regular → F.implicitLeadingBit = true →
      (F.fractionWidth : ℤ) + 1 ≤ F.maxExponent →
        ∀ n : ℤ, |n| ≤ 2 ^ (F.fractionWidth + 1) → RoundTrips F n := by
  constructor
  · intro hall
    let F : Format := { exponentWidth := 65, mantissaWidth := 2 }
    let one := pack F .positive F.bias 0
    have hnone : toIntegerType none true .integer one default = .error .exponentTooWide := by
      decide +kernel
    have hto := hall F rfl (by decide) (by decide) none true .integer one default
    have hfails := hto.none_of_not fun ⟨n, env', hn⟩ => by
      rw [hnone] at hn
      cases hn
    rw [hnone] at hfails
    cases hfails
  · intro hall
    have hof : ofInteger .wide none 1 default = .error .exponentTooWide := by decide +kernel
    obtain ⟨x, hx, -⟩ := hall .wide Format.regular_wide rfl (by decide +kernel) 1 (by decide) none
      default
    rw [hof] at hx
    cases hx

/-- Just outside of the range of an unsigned type: -1/2 in two directions. -/
example :
    let F : Format := { exponentWidth := 5, mantissaWidth := 10 }
    toIntegerType (some .tiesToEven) true (.unsigned 8) (pack F .negative 14 0) default =
        .ok (some 0, (default : Environment).raise Flags.nx) ∧
      toIntegerType (some .tiesToAway) true (.unsigned 8) (pack F .negative 14 0) default =
        .ok (none, (default : Environment).raise Flags.nv) := by
  decide +kernel

end Stepwise
end HartFloat
