import HartFloat.Proofs.Arithmetic.ExactNumber
import HartFloat.Proofs.Rounding.Accuracy

/-!
# Exact remainders

The quotient of two finite numbers is rounded to the nearest integer, the even one of two, and that
multiple of the divisor is taken away. What is left is a multiple of the lower one of the two
spacings. It is at most half the divisor, and not larger than what is left if nothing is taken away.
Whichever number the lower spacing comes from, the remainder therefore has no more digits than it,
and is a value of the format.
-/
namespace HartFloat

/-- No integer is nearer to the number, and none is as near if this one is odd. -/
structure IsNearestEven (q : ℚ) (n : ℤ) : Prop where
  abs_sub_le : ∀ m : ℤ, |q - n| ≤ |q - m|
  even_of_tie : ∀ m : ℤ, m ≠ n → |q - m| = |q - n| → Even n

namespace IsNearestEven

variable {q : ℚ} {n : ℤ}

theorem abs_sub_le_half (h : IsNearestEven q n) : |q - n| ≤ 1 / 2 := by
  have hnext := sq_le_sq.mpr (h.abs_sub_le (n + 1))
  have hprev := sq_le_sq.mpr (h.abs_sub_le (n - 1))
  push_cast at hnext hprev
  rw [abs_le]
  constructor <;> linarith

theorem abs_sub_le_abs (h : IsNearestEven q n) : |q - n| ≤ |q| := by
  simpa using h.abs_sub_le 0

end IsNearestEven

namespace Pattern

/-- To compare what is above the floor with a half is to round to nearest. -/
theorem nearestEven_eq_roundReal (q : ℚ) :
    nearestEven q = RoundingMode.tiesToEven.roundReal q := by
  have hlt : q - ⌊q⌋ < 1 / 2 ↔ q - ⌊q⌋ < ⌊q⌋ + 1 - q := by
    constructor <;> intro hq <;> linarith
  have heq : q - ⌊q⌋ = 1 / 2 ↔ q - ⌊q⌋ = ⌊q⌋ + 1 - q := by
    constructor <;> intro hq <;> linarith
  have hfloor : q.floor = ⌊q⌋ := rfl
  simp only [nearestEven, RoundingMode.roundReal, RoundingMode.nearest, Rat.floor_cast, hfloor,
    hlt, heq, ← Int.even_iff]
  norm_cast

theorem isNearestEven_nearestEven (q : ℚ) : IsNearestEven q (nearestEven q) where
  abs_sub_le m := by
    have hle := RoundingMode.abs_roundReal_sub_le_abs_sub
      (rfl : RoundingMode.tiesToEven.isNearest = true) q m
    rw [← nearestEven_eq_roundReal, abs_sub_comm, abs_sub_comm (m : ℝ)] at hle
    exact_mod_cast hle
  even_of_tie m hne htie := by
    rw [nearestEven_eq_roundReal] at hne htie ⊢
    refine RoundingMode.even_roundReal_of_tie (r := q) ?_ hne
    rw [abs_sub_comm, abs_sub_comm _ (q : ℝ)]
    exact_mod_cast htie

end Pattern

namespace Format

variable {F : Format} {j k : ℤ}

theorem multiple_mem_finiteValues_of_abs_le (h : F.Regular) (s : Sign) {n : ℕ}
    (hn : n < 2 * F.unit) (hlo : F.minExponent ≤ k) (hhi : k ≤ F.maxExponent)
    (hle : |j * F.spacing k| ≤ |s.factor * n * F.spacing k|) :
    j * F.spacing k ∈ F.finiteValues := by
  have hint : |j| ≤ n := by
    rw [abs_mul, abs_mul, abs_mul, Sign.abs_factor, one_mul, Nat.abs_cast,
      mul_le_mul_iff_left₀ (abs_pos.mpr spacing_pos.ne')] at hle
    exact_mod_cast hle
  exact multiple_mem_finiteValues h (by omega) hlo hhi

/-- What is left of one value after multiples of another are taken away is a value, if it is not
larger than either of them. -/
theorem sub_mul_mem_finiteValues (h : F.Regular) {p q : ℝ} (hp : p ∈ F.finiteValues)
    (hq : q ∈ F.finiteValues) (n : ℤ) (hlep : |p - n * q| ≤ |p|) (hleq : |p - n * q| ≤ |q|) :
    p - n * q ∈ F.finiteValues := by
  obtain ⟨s, a, k, ha, hlo, hhi, rfl⟩ := exists_of_mem_finiteValues h hp
  obtain ⟨t, b, l, hb, hlo', hhi', rfl⟩ := exists_of_mem_finiteValues h hq
  have hmultiple (e : ℤ) (hek : e ≤ k) (hel : e ≤ l) : ∃ j : ℤ,
      s.factor * a * F.spacing k - n * (t.factor * b * F.spacing l) = j * F.spacing e := by
    obtain ⟨i, hi⟩ := exists_multiple (F := F) hek (s.factor * a)
    obtain ⟨j, hj⟩ := exists_multiple (F := F) hel (t.factor * b)
    refine ⟨i - n * j, ?_⟩
    push_cast at hi hj ⊢
    rw [hi, hj]
    ring
  -- The number to which the lower spacing belongs bounds the significand of the remainder.
  rcases le_total k l with hkl | hlk
  · obtain ⟨j, hj⟩ := hmultiple k le_rfl hkl
    rw [hj] at hlep ⊢
    exact multiple_mem_finiteValues_of_abs_le h s ha hlo hhi hlep
  · obtain ⟨j, hj⟩ := hmultiple l hlk le_rfl
    rw [hj] at hleq ⊢
    exact multiple_mem_finiteValues_of_abs_le h t hb hlo' hhi' hleq

end Format

namespace IsNearestEven

variable {p q : ℚ} {n : ℤ} (h : IsNearestEven (p / q) n) (hq : q ≠ 0)

include h hq

omit h in
theorem abs_sub_mul_eq (n : ℤ) : |p - n * q| = |p / q - n| * |q| := by
  rw [← abs_mul, sub_mul, div_mul_cancel₀ p hq]

theorem abs_sub_mul_le_half : |p - n * q| ≤ |q| / 2 := by
  calc |p - n * q| = |p / q - n| * |q| := abs_sub_mul_eq hq n
    _ ≤ 1 / 2 * |q| := mul_le_mul_of_nonneg_right h.abs_sub_le_half (abs_nonneg q)
    _ = |q| / 2 := by ring

theorem abs_sub_mul_le_abs : |p - n * q| ≤ |p| := by
  calc |p - n * q| = |p / q - n| * |q| := abs_sub_mul_eq hq n
    _ ≤ |p / q| * |q| := mul_le_mul_of_nonneg_right h.abs_sub_le_abs (abs_nonneg q)
    _ = |p| := by rw [← abs_mul, div_mul_cancel₀ p hq]

end IsNearestEven

namespace Pattern

open ExactResult

variable {F : Format} {x y : Pattern F}

/-- The pattern stands for what is left of the first number when the nearest multiple of the second
one is taken away. -/
structure IsRemainder (x y z : Pattern F) : Prop where
  finite : z.HasFiniteFields
  exact : ∃ n : ℤ, IsNearestEven (x.fieldValue / y.fieldValue) n ∧
    z.fieldValue = x.fieldValue - n * y.fieldValue
  abs_le : |z.fieldValue| ≤ |y.fieldValue| / 2
  sign_of_zero : z.fieldValue = 0 → z.sign = x.sign

section

variable (h : F.Regular) (hi : F.implicitLeadingBit = true) (hwidth : F.exponentWidth ≤ 63)

include h hi hwidth

theorem remainder_eq (hx : x.HasFiniteFields) (hy : y.HasFiniteFields) (hne : y.fieldValue ≠ 0)
    {n : ℤ} (hn : n = nearestEven (x.fieldValue / y.fieldValue)) {s : Sign}
    (hs : x.fieldValue - n * y.fieldValue = 0 → s = x.sign) (c : Context) :
    x.remainder c y =
      (Number.finite s (x.fieldValue - n * y.fieldValue)).exact.outcome F c := by
  have hnx : x.number? = some (.finite x.sign x.fieldValue) := if_pos hx
  have hny : y.number? = some (.finite y.sign y.fieldValue) := if_pos hy
  obtain ⟨hxInf, -, -, hxValue⟩ := number?_finite h hi hnx
  obtain ⟨hyInf, hyZero, -, hyValue⟩ := number?_finite h hi hny
  subst hn
  simp only [remainder, ratio_eq hwidth, Except.bind, isNaN_of_number? h hi hnx,
    isNaN_of_number? h hi hny, hxInf, hyInf, hyZero, hne, hxValue, hyValue, Number.exact,
    Bool.or_self, decide_false, Bool.false_eq_true, if_false, mul_comm y.fieldValue]
  split_ifs with hzero
  · rw [hs hzero, outcome_zero h]
  · rfl

theorem exists_isOutcome_remainder (hx : x.HasFiniteFields) (hy : y.HasFiniteFields)
    (hne : y.fieldValue ≠ 0) :
    ∃ (n : ℤ) (s : Sign), IsNearestEven (x.fieldValue / y.fieldValue) n ∧
      (x.fieldValue - n * y.fieldValue = 0 → s = x.sign) ∧
      ∀ c, (Number.finite s (x.fieldValue - n * y.fieldValue)).IsOutcome c (x.remainder c y) := by
  let n := nearestEven (x.fieldValue / y.fieldValue)
  have hn : IsNearestEven (x.fieldValue / y.fieldValue) n := isNearestEven_nearestEven _
  obtain ⟨s, hsigned, hs⟩ := Number.exists_isSigned x.sign (x.fieldValue - n * y.fieldValue)
  refine ⟨n, s, hn, hs, fun c => ?_⟩
  have hhalf := hn.abs_sub_mul_le_half hne
  have hle := hn.abs_sub_mul_le_abs hne
  have hle' : |x.fieldValue - n * y.fieldValue| ≤ |y.fieldValue| :=
    hhalf.trans (half_le_self (abs_nonneg _))
  have hin : (Number.finite s (x.fieldValue - n * y.fieldValue)).IsIn F := by
    have hmem := Format.sub_mul_mem_finiteValues h ⟨x, hx, rfl⟩ ⟨y, hy, rfl⟩ n
      (by exact_mod_cast hle) (by exact_mod_cast hle')
    show ((x.fieldValue - n * y.fieldValue : ℚ) : ℝ) ∈ F.finiteValues
    exact_mod_cast hmem
  rw [remainder_eq h hi hwidth hx hy hne rfl hs c]
  exact Number.isOutcome_exact h hwidth hsigned hin c

end

end Pattern

namespace Environment

open Pattern

/-- Where the exponents fit, the remainder of finite numbers is exact in every rounding direction:
it is what is left when the nearest multiple of the divisor is taken away, and nothing is raised
where exact underflow is ignored. -/
theorem run_isRemainder {F : Format} (h : F.Regular) (hi : F.implicitLeadingBit = true)
    (hwidth : F.exponentWidth ≤ 63) (env : Environment) (mode? : Option RoundingMode)
    {x y : Pattern F} (hx : x.HasFiniteFields) (hy : y.HasFiniteFields) (hne : y.fieldValue ≠ 0) :
    ∃ z f, env.run mode? (fun c => x.remainder c y) = .ok (z, env.raise f) ∧ x.IsRemainder y z ∧
      (env.exceptions = .ignoreExactUnderflow → f = ∅) := by
  obtain ⟨n, s, hn, hs, houtcome⟩ := exists_isOutcome_remainder h hi hwidth hx hy hne
  obtain ⟨z, f, hrun, hz, hf⟩ := exists_run_of_isOutcome houtcome env mode?
  obtain ⟨hfinite, hsign, hvalue⟩ := number?_eq_finite hz
  exact ⟨z, f, hrun,
    { finite := hfinite
      exact := ⟨n, hn, hvalue⟩
      abs_le := hvalue ▸ hn.abs_sub_mul_le_half hne
      sign_of_zero := fun hzero => hsign.trans (hs (hvalue ▸ hzero)) }, hf⟩

/-- The quotient -3/2 lies halfway between two integers, so that minus four is taken from minus
three. -/
theorem run_isRemainder_half :
    let F : Format := { exponentWidth := 5, mantissaWidth := 10 }
    let x := pack F .negative 16 512
    let y := pack F .positive 16 0
    F.Regular ∧ F.exponentWidth ≤ 63 ∧ x.HasFiniteFields ∧ y.HasFiniteFields ∧
      y.fieldValue ≠ 0 ∧
      ∃ z f, (default : Environment).run (some .towardZero) (fun c => x.remainder c y) =
          .ok (z, (default : Environment).raise f) ∧ x.IsRemainder y z ∧
        ((default : Environment).exceptions = .ignoreExactUnderflow → f = ∅) := by
  intro F x y
  have h : F.Regular := ⟨rfl, by decide, by decide⟩
  have hx : x.HasFiniteFields := by decide +kernel
  have hy : y.HasFiniteFields := by decide +kernel
  have hne : y.fieldValue ≠ 0 := by decide +kernel
  exact ⟨h, by decide, hx, hy, hne,
    run_isRemainder h rfl (by decide) default (some .towardZero) hx hy hne⟩

/-- With 64 bits of exponent, dividing one by three leaves no remainder that can be returned. -/
theorem remainder_of_one_may_fail :
    ¬∀ F : Format, F.Regular → F.implicitLeadingBit = true → ∀ (env : Environment)
      (mode? : Option RoundingMode) (x y : Pattern F), x.HasFiniteFields → y.HasFiniteFields →
        y.fieldValue ≠ 0 → ∃ z f, env.run mode? (fun c => x.remainder c y) =
            .ok (z, env.raise f) ∧ x.IsRemainder y z ∧
          (env.exceptions = .ignoreExactUnderflow → f = ∅) := by
  intro h
  let one := pack .wide .positive Format.wide.bias 0
  let three := pack .wide .positive (Format.wide.bias + 1) 2
  have hne : three.fieldValue ≠ 0 := by decide +kernel
  have hremainder : (default : Environment).run none (fun c => one.remainder c three) =
      .error .exponentTooWide := by
    decide +kernel
  obtain ⟨z, f, hrun, -⟩ := h .wide Format.regular_wide rfl default none one three
    (by decide +kernel) (by decide +kernel) hne
  rw [hremainder] at hrun
  cases hrun

/-- The remainder of -3 by 2, which is 1. -/
example :
    let F : Format := { exponentWidth := 5, mantissaWidth := 10 }
    (pack F .negative 16 512).remainder { mode := .towardZero } (pack F .positive 16 0) =
      .ok (pack F .positive 15 0, ∅) := by
  decide +kernel

end Environment
end HartFloat
