import HartFloat.Proofs.Rounding.Correct

/-!
# The exceptions of rounding

Which exceptions rounding raises follows from the number, the direction and the two modes for tiny
results. Tininess after rounding is decided on the grid of the least normal binade and on the next
finer one; both together say whether the number stays below the least normal one when it is rounded
without bounds on the exponent.
-/
namespace HartFloat

namespace Format

open Exact

/-- The exceptions are those of rounding the number to the pattern. -/
structure Raises (F : Format) (c : Context) (r : ℝ) (y : Pattern F) (f : Flags) : Prop where
  invalid : f.invalid = false
  divisionByZero : f.divisionByZero = false
  overflow : f.overflow = true ↔ F.Overflows c.mode r
  underflow : f.underflow = true ↔
    0 < |r| ∧ |r| < 2 ^ F.minExponent ∧
      (y.extended? ≠ some (r : EReal) ∨ c.exceptions = .signalExactUnderflow) ∧
      (c.tininess = .beforeRounding ∨ |F.roundUnbounded c.mode r| < 2 ^ F.minExponent)
  inexact : f.inexact = true ↔ y.extended? ≠ some (r : EReal)

variable {F : Format} {c : Context} {mode : RoundingMode} {v : Surd}

theorem log_lt_minExponent_iff {r : ℝ} (hr : r ≠ 0) :
    Int.log 2 |r| < F.minExponent ↔ |r| < 2 ^ F.minExponent :=
  (Int.lt_zpow_iff_log_lt one_lt_two (abs_pos.mpr hr)).symm

/-- A value that reaches the least normal number on the finer grid reaches it on the coarser. -/
theorem units_minExponent_eq (h : F.units mode v (F.minExponent - 1) = 2 * F.unit) :
    F.unit ≤ F.units mode v F.minExponent := by
  have hdouble : (v.magnitude.scale (F.fractionWidth - (F.minExponent - 1))).toReal =
      2 * (v.magnitude.scale (F.fractionWidth - F.minExponent)).toReal := by
    rw [Magnitude.toReal_scale, Magnitude.toReal_scale,
      show (F.fractionWidth : ℤ) - (F.minExponent - 1) = F.fractionWidth - F.minExponent + 1 by
        ring,
      zpow_add_one₀ two_ne_zero]
    ring
  have hle : ((2 * F.unit : ℕ) : ℤ) ≤ |mode.roundReal (v.sign.factor *
      (2 * (v.magnitude.scale (F.fractionWidth - F.minExponent)).toReal))| := by
    rw [← hdouble, ← toReal_div_spacing, abs_roundReal_toReal_div_spacing, h]
  have hhalf := mode.le_abs_roundReal_of_double (Magnitude.toReal_nonneg _) hle
  rw [← toReal_div_spacing, abs_roundReal_toReal_div_spacing] at hhalf
  exact_mod_cast hhalf

theorem tiny_iff (hlog : Int.log 2 |v.toReal| < F.minExponent) :
    ((F.roundAt mode v.sign v.magnitude F.minExponent).significand < F.unit ∨
        (F.roundAt mode v.sign v.magnitude (F.minExponent - 1)).exponent < F.minExponent) ↔
      |F.roundUnbounded mode v.toReal| < 2 ^ F.minExponent := by
  have hu := F.unit_pos
  have hbelow : |v.toReal| ≤ 2 ^ F.minExponent :=
    (lt_two_zpow_log _).le.trans (zpow_le_zpow_right₀ one_le_two (by omega))
  have hfine := exponent_roundAt_lt_iff (F := F) (v := v) (e := F.minExponent - 1) mode
    (by rwa [sub_add_cancel])
  have hunits : F.units mode v F.minExponent < 2 * F.unit := by
    have hle := units_le_unit (F := F) mode hbelow
    omega
  have hcoarse := (roundAt_of_lt hunits).2
  rw [sub_add_cancel] at hfine
  rw [hfine, hcoarse]
  rcases lt_or_ge (Int.log 2 |v.toReal|) (F.minExponent - 1) with hfar | hnear
  · have hpow : (2 : ℝ) ^ (F.minExponent - 1) < 2 ^ F.minExponent :=
      zpow_lt_zpow_right₀ one_lt_two (by omega)
    have hbinade : (2 : ℝ) ^ (Int.log 2 |v.toReal| + 1) ≤ 2 ^ (F.minExponent - 1) :=
      zpow_le_zpow_right₀ one_le_two (by omega)
    have hunbounded : |F.roundUnbounded mode v.toReal| < 2 ^ F.minExponent :=
      ((abs_roundUnbounded_le _).trans hbinade).trans_lt hpow
    have hround : |F.roundToSpacing mode (F.minExponent - 1) v.toReal| < 2 ^ F.minExponent := by
      refine lt_of_le_of_lt ?_ hpow
      rw [← unit_mul_spacing]
      refine abs_roundToSpacing_le mode ?_
      rw [unit_mul_spacing]
      exact (lt_two_zpow_log _).le.trans hbinade
    exact iff_of_true (Or.inr hround) hunbounded
  -- In the binade next to it the finer grid is that of the value's own binade.
  · have hown : F.roundUnbounded mode v.toReal =
        F.roundToSpacing mode (F.minExponent - 1) v.toReal := by
      rw [roundUnbounded, show Int.log 2 |v.toReal| = F.minExponent - 1 by omega]
    rw [hown, or_iff_right_of_imp]
    intro hlt
    have hle : F.units mode v (F.minExponent - 1) ≤ 2 * F.unit :=
      units_le_two_unit mode (by rwa [sub_add_cancel])
    have hne : F.units mode v (F.minExponent - 1) ≠ 2 * F.unit := fun heq => by
      have := units_minExponent_eq heq
      omega
    rw [← sub_add_cancel F.minExponent 1, ← two_unit_mul_spacing, sub_add_cancel,
      abs_roundToSpacing, abs_roundReal_toReal_div_spacing, Int.cast_natCast]
    exact mul_lt_mul_of_pos_right (by exact_mod_cast hle.lt_of_ne hne) spacing_pos

theorem isTiny_iff (hlog : Int.log 2 |v.toReal| < F.minExponent) :
    F.isTiny c v.sign v.magnitude = true ↔
      c.tininess = .beforeRounding ∨ |F.roundUnbounded c.mode v.toReal| < 2 ^ F.minExponent := by
  cases ht : c.tininess with
  | beforeRounding => simp [isTiny, ht]
  | afterRounding =>
    simp only [isTiny, ht, Bool.or_eq_true, decide_eq_true_eq, reduceCtorEq, false_or]
    exact tiny_iff hlog

theorem infinity_ne_coe (s : Sign) (r : ℝ) : s.infinity ≠ (r : EReal) := by
  cases s
  · exact EReal.top_ne_coe r
  · exact EReal.bot_ne_coe r

theorem extended?_ne_iff {y : Pattern F} {r : ℝ} (hy : y.HasFiniteFields) :
    y.extended? ≠ some (r : EReal) ↔ (y.fieldValue : ℝ) ≠ r := by
  rw [extended?_of_finite hy, ne_eq, Option.some.injEq, EReal.coe_eq_coe_iff]

theorem Overflows.extended?_ne (h : F.Regular) {r : ℝ} (ho : F.Overflows mode r) (y : Pattern F) :
    y.extended? ≠ some (r : EReal) := by
  by_cases hy : y.HasFiniteFields
  · rw [extended?_ne_iff hy]
    intro heq
    have hlt := ho.abs_lt h ⟨y, hy, rfl⟩
    rw [heq] at hlt
    exact lt_irrefl _ hlt
  · rw [Pattern.extended?, if_neg hy]
    split_ifs
    · exact fun heq => infinity_ne_coe _ r (Option.some.inj heq)
    · exact (Option.some_ne_none _).symm

theorem raises_of_overflows (h : F.Regular) (ho : F.Overflows c.mode v.toReal) :
    F.Raises c v.toReal (F.rounding c v).1 (F.rounding c v).2 := by
  have hlarge : ¬|v.toReal| < 2 ^ F.minExponent := by
    refine not_lt.mpr (le_trans ?_ ho.largest_lt_abs.le)
    exact (zpow_le_zpow_right₀ one_le_two h.minExponent_le_maxExponent).trans two_zpow_le_largest
  have hflags : (F.rounding c v).2 = Flags.of ∪ Flags.nx := by rw [rounding_of_overflows h ho]
  rw [hflags]
  exact
    { invalid := rfl
      divisionByZero := rfl
      overflow := iff_of_true rfl ho
      underflow := iff_of_false Bool.false_ne_true fun hu => hlarge hu.2.1
      inexact := iff_of_true rfl (ho.extended?_ne h _) }

theorem binadeFlags_eq (F : Format) (c : Context) (v : Surd) :
    F.binadeFlags c v =
      { (∅ : Flags) with
        underflow := F.underflows c v
        inexact := (F.rounded c.mode v).inexact } := by
  unfold binadeFlags
  cases F.underflows c v <;> cases (F.rounded c.mode v).inexact <;> rfl

theorem inexact_rounded_iff (h : F.Regular) (hv : v.isZero = false)
    (ho : ¬F.Overflows c.mode v.toReal) :
    (F.rounded c.mode v).inexact = true ↔
      (F.rounding c v).1.extended? ≠ some (v.toReal : EReal) := by
  obtain ⟨hfinite, hval⟩ := fieldValue_rounding_of_not_overflows h hv ho
  rw [extended?_ne_iff hfinite, hval, rounded_eq hv, inexact_roundAt]

theorem raises_of_not_overflows (h : F.Regular) (hv : v.isZero = false)
    (ho : ¬F.Overflows c.mode v.toReal) :
    F.Raises c v.toReal (F.rounding c v).1 (F.rounding c v).2 := by
  have hpos : 0 < |v.toReal| := abs_pos.mpr (toReal_ne_zero hv)
  have hinexact := inexact_rounded_iff h hv ho
  have hflags : (F.rounding c v).2 = F.binadeFlags c v := by rw [rounding_of_not_overflows hv h ho]
  rw [hflags, binadeFlags_eq]
  exact
    { invalid := rfl
      divisionByZero := rfl
      overflow := iff_of_false Bool.false_ne_true ho
      underflow := by
        simp only [underflows, Bool.and_eq_true, Bool.or_eq_true, decide_eq_true_eq, beq_iff_eq,
          hinexact, floorLog2_eq hv, and_assoc, hpos, true_and]
        rw [log_lt_minExponent_iff (toReal_ne_zero hv)]
        refine and_congr_right fun hlt => and_congr_right fun _ => isTiny_iff ?_
        exact (log_lt_minExponent_iff (toReal_ne_zero hv)).mpr hlt
      inexact := hinexact }

theorem raises_zero (h : F.Regular) (c : Context) : F.Raises c 0 (Pattern.positiveZero F) ∅ where
  invalid := rfl
  divisionByZero := rfl
  overflow := iff_of_false Bool.false_ne_true fun ho => ho.ne_zero rfl
  underflow := iff_of_false Bool.false_ne_true fun hu => hu.1.ne' abs_zero
  inexact := iff_of_false Bool.false_ne_true <| by
    rw [extended?_ne_iff (hasFiniteFields_positiveZero h), fieldValue_positiveZero, Rat.cast_zero]
    exact fun hne => hne rfl

theorem raises_rounding (h : F.Regular) (c : Context) (v : Surd) :
    F.Raises c v.toReal (F.rounding c v).1 (F.rounding c v).2 := by
  cases hv : v.isZero with
  | false =>
    by_cases ho : F.Overflows c.mode v.toReal
    · exact raises_of_overflows h ho
    · exact raises_of_not_overflows h hv ho
  | true =>
    rw [v.toReal_eq_zero_iff.mpr hv, rounding, if_pos hv]
    exact raises_zero h c

theorem Raises.eq_when_inexact {r : ℝ} {y : Pattern F} {f : Flags} (hf : F.Raises c r y f)
    (hoverflow : f.overflow = false) (hunderflow : f.underflow = false) :
    f = Flags.when f.inexact Flags.nx := by
  cases hexact : f.inexact with
  | false =>
    ext
    exacts [hf.invalid, hf.divisionByZero, hoverflow, hunderflow, hexact]
  | true =>
    ext
    exacts [hf.invalid, hf.divisionByZero, hoverflow, hunderflow, hexact]

end Format

/-- Rounding an exact value adds to the environment the exceptions that the rounded value calls
for, and no others, exactly if the exponents of the format fit or the value is zero. -/
theorem Environment.run_round_raises_iff {F : Format} (h : F.Regular) (env : Environment)
    (mode? : Option RoundingMode) (v : Exact.Surd) :
    (∃ y f, env.run mode? (fun c => F.round c v) = .ok (y, env.raise f) ∧
      F.Raises (env.toContext.override mode?) v.toReal y f) ↔
      F.exponentWidth ≤ 63 ∨ v.toReal = 0 := by
  rw [← Format.looksAtExponent_eq_false_iff h.signBit]
  constructor
  · rintro ⟨y, f, hrun, -⟩
    obtain ⟨g, hround, -⟩ := run_eq_ok_iff.mp hrun
    exact (Format.round_eq_ok_iff.mp hround).2
  · intro hv
    exact ⟨_, _, run_eq_ok_iff.mpr ⟨_, Format.round_eq_ok_iff.mpr ⟨rfl, hv⟩, rfl⟩,
      Format.raises_rounding h _ v⟩

/-- The number one raises nothing, not even no exceptions, where it is not rounded. -/
theorem Environment.rounding_one_may_raise_nothing :
    ¬∀ F : Format, F.Regular → ∀ (env : Environment) (mode? : Option RoundingMode)
      (v : Exact.Surd), ∃ y f, env.run mode? (fun c => F.round c v) = .ok (y, env.raise f) ∧
        F.Raises (env.toContext.override mode?) v.toReal y f := by
  intro h
  obtain ⟨y, f, hrun, -⟩ := h .wide Format.regular_wide default none (Exact.Surd.ofRat 1)
  obtain ⟨g, hround, -⟩ := run_eq_ok_iff.mp hrun
  rw [Format.round_wide (by simp)] at hround
  cases hround

/-- Half a unit below the least normal number the rounded value is normal and yet tiny. -/
theorem Environment.run_round_raises_iff_below_normal :
    Format.binary32.Regular ∧ Format.binary32.Raises {} (((2 ^ 24 - 1) / 2 ^ 150 : ℚ) : ℝ)
      (Pattern.pack .binary32 .positive 1 0) (Flags.uf ∪ Flags.nx) := by
  obtain ⟨y, f, hrun, h⟩ := (run_round_raises_iff Format.regular_binary32 default none
    (Exact.Surd.ofRat ((2 ^ 24 - 1) / 2 ^ 150))).mpr (Or.inl (by decide))
  have hround : (default : Environment).run none (fun c =>
      Format.binary32.round c (Exact.Surd.ofRat ((2 ^ 24 - 1) / 2 ^ 150))) =
        .ok (Pattern.pack .binary32 .positive 1 0, raise default (Flags.uf ∪ Flags.nx)) := by
    decide +kernel
  obtain ⟨rfl, hraise⟩ := Prod.mk.inj (Except.ok.inj (hrun.symm.trans hround))
  have hflags : f = Flags.uf ∪ Flags.nx := by
    have hadded : ∅ ∪ f = ∅ ∪ (Flags.uf ∪ Flags.nx) := congrArg flags hraise
    rwa [Flags.empty_union, Flags.empty_union] at hadded
  rw [Exact.Surd.toReal_ofRat, hflags] at h
  exact ⟨Format.regular_binary32, h⟩

end HartFloat
