import HartFloat.Proofs.Exact.Value
import HartFloat.Pattern

/-!
# Fields of patterns and the values they stand for

Packing and taking apart are inverse. A finite pattern stands for its significand times a power of
two, where the exponent field zero counts as one; this reads the value off the fields and does not
use the class.
-/
namespace HartFloat

namespace Format

variable (F : Format)

/-- A format with signed values, at least two exponents of normal numbers and at least one bit
after the binary point. -/
structure Regular (F : Format) : Prop where
  signBit : F.signBit = true
  two_le_exponentWidth : 2 ≤ F.exponentWidth
  two_le_mantissaWidth : 2 ≤ F.mantissaWidth

theorem regular_binary32 : binary32.Regular := ⟨rfl, by decide, by decide⟩

variable {F}

theorem unit_pos : 0 < F.unit := Nat.two_pow_pos _

theorem Regular.infinityExponent_eq (h : F.Regular) : F.infinityExponent = 2 * F.bias + 1 := by
  obtain ⟨n, hn⟩ := Nat.exists_eq_add_of_le h.two_le_exponentWidth
  have hpos := Nat.two_pow_pos n
  simp only [infinityExponent, bias, hn]
  rw [show 2 + n - 1 = n + 1 by omega, show 2 + n = n + 1 + 1 by omega]
  simp only [Nat.pow_succ]
  omega

theorem Regular.bias_pos (h : F.Regular) : 0 < F.bias := by
  obtain ⟨n, hn⟩ := Nat.exists_eq_add_of_le h.two_le_exponentWidth
  have hpos := Nat.two_pow_pos n
  simp only [bias, hn]
  rw [show 2 + n - 1 = n + 1 by omega, Nat.pow_succ]
  omega

theorem Regular.maxNormalExponent_eq (h : F.Regular) : F.maxNormalExponent = 2 * F.bias := by
  rw [maxNormalExponent, h.infinityExponent_eq]
  omega

theorem Regular.maxExponent_eq (h : F.Regular) : F.maxExponent = F.bias := by
  rw [maxExponent, h.maxNormalExponent_eq]
  omega

theorem Regular.minExponent_le (h : F.Regular) : F.minExponent ≤ 0 := by
  have := h.bias_pos
  unfold minExponent
  omega

theorem Regular.maxExponent_nonneg (h : F.Regular) : 0 ≤ F.maxExponent := by
  rw [h.maxExponent_eq]
  exact Nat.cast_nonneg _

theorem Regular.minExponent_le_maxExponent (h : F.Regular) : F.minExponent ≤ F.maxExponent :=
  h.minExponent_le.trans h.maxExponent_nonneg

theorem Regular.infinityExponent_ne_zero (h : F.Regular) : F.infinityExponent ≠ 0 := by
  rw [h.infinityExponent_eq]
  omega

theorem lt_two_pow_iff {e : ℕ} :
    e < 2 ^ F.exponentWidth ↔ e ≤ F.infinityExponent := by
  have := Nat.two_pow_pos F.exponentWidth
  unfold infinityExponent
  omega

theorem Regular.one_le_fractionWidth (h : F.Regular) : 1 ≤ F.fractionWidth := by
  have := h.two_le_mantissaWidth
  unfold fractionWidth
  cases F.implicitLeadingBit <;> simp <;> omega

/-- The unit is an even number of places, so that half of it is a whole number. -/
theorem Regular.even_unit (h : F.Regular) : Even F.unit := by
  have := h.one_le_fractionWidth
  exact (Nat.even_pow.mpr ⟨even_two, by omega⟩)

theorem Regular.one_lt_unit (h : F.Regular) : 1 < F.unit := by
  have := h.one_le_fractionWidth
  exact Nat.one_lt_two_pow (by omega)

theorem two_pow_mantissaWidth_of_written (hi : F.implicitLeadingBit = false)
    (hw : F.mantissaWidth ≠ 0) : 2 ^ F.mantissaWidth = 2 * F.unit := by
  obtain ⟨n, hn⟩ := Nat.exists_eq_succ_of_ne_zero hw
  simp [unit, fractionWidth, hi, hn, Nat.pow_succ, Nat.mul_comm]

/-- The mantissa field holds the whole significand, or all of it but the leading bit. -/
theorem Regular.two_pow_mantissaWidth (h : F.Regular) :
    2 ^ F.mantissaWidth = if F.implicitLeadingBit then F.unit else 2 * F.unit := by
  have hw := h.two_le_mantissaWidth
  cases hi : F.implicitLeadingBit
  · rw [two_pow_mantissaWidth_of_written hi (by omega)]
    rfl
  · simp [unit, fractionWidth, hi]

theorem Regular.one_lt_two_pow_mantissaWidth (h : F.Regular) : 1 < 2 ^ F.mantissaWidth := by
  have := h.two_le_mantissaWidth
  exact Nat.one_lt_two_pow (by omega)

end Format

namespace Pattern

variable {F : Format}

theorem bits_pack (s : Sign) (e m : ℕ) :
    (pack F s e m).bits =
      (signDigit s * 2 ^ F.exponentWidth + e % 2 ^ F.exponentWidth) * 2 ^ F.mantissaWidth
        + m % 2 ^ F.mantissaWidth := rfl

theorem pack_div_mod {a b k : ℕ} (h : b < 2 ^ k) :
    (a * 2 ^ k + b) / 2 ^ k = a ∧ (a * 2 ^ k + b) % 2 ^ k = b := by
  have hpos := Nat.two_pow_pos k
  constructor
  · rw [Nat.mul_comm, Nat.mul_add_div hpos, Nat.div_eq_of_lt h, Nat.add_zero]
  · rw [Nat.mul_comm, Nat.mul_add_mod, Nat.mod_eq_of_lt h]

@[simp] theorem exponent_pack (s : Sign) (e m : ℕ) :
    (pack F s e m).exponent = e % 2 ^ F.exponentWidth := by
  unfold exponent
  rw [bits_pack, (pack_div_mod (Nat.mod_lt _ (Nat.two_pow_pos _))).1,
    (pack_div_mod (Nat.mod_lt _ (Nat.two_pow_pos _))).2]

@[simp] theorem exponent_pack_infinity (s : Sign) (m : ℕ) :
    (pack F s F.infinityExponent m).exponent = F.infinityExponent := by
  rw [exponent_pack, Nat.mod_eq_of_lt (Format.lt_two_pow_iff.mpr le_rfl)]

@[simp] theorem mantissa_pack (s : Sign) (e m : ℕ) :
    (pack F s e m).mantissa = m % 2 ^ F.mantissaWidth := by
  unfold mantissa
  rw [bits_pack, (pack_div_mod (Nat.mod_lt _ (Nat.two_pow_pos _))).2]

@[simp] theorem topDigit_pack (s : Sign) (e m : ℕ) : (pack F s e m).topDigit = signDigit s := by
  unfold topDigit Format.signShift
  rw [bits_pack, Nat.add_comm F.exponentWidth, Nat.pow_add, ← Nat.div_div_eq_div_mul,
    (pack_div_mod (Nat.mod_lt _ (Nat.two_pow_pos _))).1,
    (pack_div_mod (Nat.mod_lt _ (Nat.two_pow_pos _))).1]

theorem sign_pack (hs : F.signBit = true) (s : Sign) (e m : ℕ) : (pack F s e m).sign = s := by
  unfold sign
  rw [topDigit_pack]
  cases s <;> simp [hs, signDigit]

section withFields

variable (x : Pattern F) {e m : ℕ}

theorem exponent_withFields (he : e < 2 ^ F.exponentWidth) (m : ℕ) :
    (x.withFields e m).exponent = e := by
  rw [withFields, exponent_pack, Nat.mod_eq_of_lt he]

theorem mantissa_withFields (e : ℕ) (hm : m < 2 ^ F.mantissaWidth) :
    (x.withFields e m).mantissa = m := by
  rw [withFields, mantissa_pack, Nat.mod_eq_of_lt hm]

@[simp] theorem sign_withFields (e m : ℕ) : (x.withFields e m).sign = x.sign := by
  rw [sign, sign, withFields, topDigit_pack]
  split_ifs <;> simp_all [signDigit]

theorem withFields_eq_pack (hs : F.signBit = true) (e m : ℕ) :
    x.withFields e m = pack F x.sign e m := by
  rw [withFields, sign]
  split_ifs <;> simp_all

end withFields

theorem exponent_lt (x : Pattern F) : x.exponent < 2 ^ F.exponentWidth :=
  Nat.mod_lt _ (Nat.two_pow_pos _)

theorem mantissa_lt (x : Pattern F) : x.mantissa < 2 ^ F.mantissaWidth :=
  Nat.mod_lt _ (Nat.two_pow_pos _)

theorem topDigit_lt (x : Pattern F) : x.topDigit < 2 := by
  have hlt := x.bits_lt
  rw [Format.capacity, pow_succ, mul_comm] at hlt
  exact Nat.div_lt_of_lt_mul (by rwa [mul_comm] at hlt)

theorem bits_eq (x : Pattern F) :
    x.bits =
      2 ^ F.mantissaWidth * (x.topDigit * 2 ^ F.exponentWidth + x.exponent) + x.mantissa := by
  have hhigh : x.bits / 2 ^ F.mantissaWidth / 2 ^ F.exponentWidth = x.topDigit := by
    rw [Nat.div_div_eq_div_mul, ← pow_add, Nat.add_comm]
    rfl
  have hfields : x.bits / 2 ^ F.mantissaWidth = x.topDigit * 2 ^ F.exponentWidth + x.exponent := by
    rw [← hhigh, exponent, mul_comm]
    exact (Nat.div_add_mod _ _).symm
  rw [← hfields, mantissa]
  exact (Nat.div_add_mod _ _).symm

theorem withFields_self (x : Pattern F) : x.withFields x.exponent x.mantissa = x := by
  have hdigit : signDigit (if x.topDigit = 0 then .positive else .negative) = x.topDigit := by
    have := x.topDigit_lt
    split_ifs <;> simp only [signDigit] <;> omega
  rw [withFields, Pattern.mk.injEq, bits_pack, hdigit, Nat.mod_eq_of_lt x.exponent_lt,
    Nat.mod_eq_of_lt x.mantissa_lt, Nat.mul_comm]
  exact x.bits_eq.symm

theorem eq_of_fields (hs : F.signBit = true) {x y : Pattern F} (hsign : x.sign = y.sign)
    (hexp : x.exponent = y.exponent) (hmant : x.mantissa = y.mantissa) : x = y := by
  have hdigit : x.topDigit = y.topDigit := by
    have hx := x.topDigit_lt
    have hy := y.topDigit_lt
    simp only [sign, hs, true_and] at hsign
    split_ifs at hsign <;> omega
  rw [Pattern.mk.injEq, x.bits_eq, y.bits_eq, hdigit, hexp, hmant]

/-- The significand that the fields stand for. -/
def fieldSignificand (x : Pattern F) : ℕ :=
  if F.implicitLeadingBit ∧ x.exponent ≠ 0 then F.unit + x.mantissa else x.mantissa

/-- The value that the fields of a finite pattern stand for. -/
def fieldValue (x : Pattern F) : ℚ :=
  x.sign.factor * x.fieldSignificand *
    2 ^ ((max x.exponent 1 : ℤ) - F.bias - F.fractionWidth)

/-- The exponent field of infinities and NaNs does not occur in finite patterns. -/
def HasFiniteFields (x : Pattern F) : Prop := x.exponent ≠ F.infinityExponent

theorem hasFiniteFields_of_exponent_eq_zero (h : F.Regular) {x : Pattern F}
    (hexp : x.exponent = 0) : x.HasFiniteFields := by
  rw [HasFiniteFields, hexp]
  exact h.infinityExponent_ne_zero.symm

/-- In a format that writes the leading bit: the bit is set, unless the exponent field is zero or
the pattern is the one of an infinity. -/
def IsNormalized (x : Pattern F) : Prop :=
  x.exponent = 0 ∨ F.unit ≤ x.mantissa ∨ x.exponent = F.infinityExponent ∧ x.mantissa = 0

theorem fieldSignificand_eq_mantissa (hi : F.implicitLeadingBit = false) (x : Pattern F) :
    x.fieldSignificand = x.mantissa := by
  rw [fieldSignificand, if_neg (by simp [hi])]

theorem fieldSignificand_lt (x : Pattern F) : x.fieldSignificand < 2 * F.unit := by
  have hm := x.mantissa_lt
  unfold fieldSignificand
  cases hi : F.implicitLeadingBit with
  | false =>
    have hle : 2 ^ F.mantissaWidth ≤ 2 ^ (F.fractionWidth + 1) :=
      Nat.pow_le_pow_right Nat.two_pos (by simp [Format.fractionWidth, hi]; omega)
    rw [Nat.pow_succ'] at hle
    simpa [Format.unit] using hm.trans_le hle
  | true =>
    have hunit : 2 ^ F.mantissaWidth = F.unit := by simp [Format.unit, Format.fractionWidth, hi]
    split_ifs <;> omega

/-- With an implied leading bit the significands from the unit on are those of normal numbers. -/
theorem unit_le_fieldSignificand_iff (h : F.Regular) (hi : F.implicitLeadingBit = true)
    (x : Pattern F) : F.unit ≤ x.fieldSignificand ↔ x.exponent ≠ 0 := by
  have hm := x.mantissa_lt
  rw [h.two_pow_mantissaWidth, if_pos hi] at hm
  rw [fieldSignificand]
  by_cases he : x.exponent = 0
  · rw [if_neg (by simp [he])]
    exact iff_of_false (by omega) (not_not.mpr he)
  · rw [if_pos ⟨hi, he⟩]
    exact iff_of_true (by omega) he

/-- Significands in the upper half of their range are compared by their exponents first. -/
theorem mul_two_zpow_lt {u m n : ℕ} {d e : ℤ} (hm : m < 2 * u) (hn : u ≤ n) (hde : d < e) :
    (m * 2 ^ d : ℚ) < n * 2 ^ e := by
  have hm' : (m : ℚ) < 2 * u := by exact_mod_cast hm
  calc (m * 2 ^ d : ℚ) < 2 * u * 2 ^ d := by gcongr
    _ = u * 2 ^ (d + 1) := by rw [zpow_add_one₀ two_ne_zero]; ring
    _ ≤ n * 2 ^ e := by
      gcongr
      · exact one_le_two
      · omega

/-- The pattern with the given significand in the binade of the exponent field `e`; below the unit
it is a subnormal one. -/
def ofSignificand (F : Format) (s : Sign) (e n : ℕ) : Pattern F :=
  pack F s (if n < F.unit then 0 else e) n

theorem pack_maxMantissa (h : F.Regular) (s : Sign) (e : ℕ) :
    pack F s e F.maxMantissa = ofSignificand F s e (2 * F.unit - 1) := by
  have hu := F.unit_pos
  have hfield : F.maxMantissa % 2 ^ F.mantissaWidth =
      (2 * F.unit - 1) % 2 ^ F.mantissaWidth := by
    rw [Format.maxMantissa, h.two_pow_mantissaWidth]
    cases F.implicitLeadingBit
    · simp
    · rw [if_pos rfl, show 2 * F.unit - 1 = F.unit + (F.unit - 1) by omega, Nat.add_mod_left]
  rw [ofSignificand, if_neg (by omega), Pattern.mk.injEq, bits_pack, bits_pack, hfield]

section ofSignificand

variable (h : F.Regular) (s : Sign) {e n : ℕ} (he : 1 ≤ e) (hmax : e ≤ F.maxNormalExponent)
  (hn : n < 2 * F.unit) (hsub : n < F.unit → e = 1)

include h in
theorem sign_ofSignificand : (ofSignificand F s e n).sign = s := sign_pack h.signBit s _ _

include h hmax in
theorem exponent_ofSignificand :
    (ofSignificand F s e n).exponent = if n < F.unit then 0 else e := by
  rw [ofSignificand, exponent_pack, Nat.mod_eq_of_lt]
  rw [Format.lt_two_pow_iff, h.infinityExponent_eq]
  rw [h.maxNormalExponent_eq] at hmax
  split_ifs <;> omega

include h hmax in
theorem hasFiniteFields_ofSignificand : (ofSignificand F s e n).HasFiniteFields := by
  have hb := h.bias_pos
  rw [HasFiniteFields, exponent_ofSignificand h s hmax, h.infinityExponent_eq]
  rw [h.maxNormalExponent_eq] at hmax
  split_ifs <;> omega

include h hn in
theorem mantissa_ofSignificand :
    (ofSignificand F s e n).mantissa = if F.implicitLeadingBit then n % F.unit else n := by
  rw [ofSignificand, mantissa_pack, h.two_pow_mantissaWidth]
  cases F.implicitLeadingBit
  · simpa using Nat.mod_eq_of_lt hn
  · simp

include h hn in
theorem even_mantissa_ofSignificand : Even (ofSignificand F s e n).mantissa ↔ Even n := by
  rw [mantissa_ofSignificand h s hn, Nat.even_iff, Nat.even_iff]
  split_ifs
  · rw [Nat.mod_mod_of_dvd n h.even_unit.two_dvd]
  · rfl

include h he hmax hn in
theorem fieldSignificand_ofSignificand : (ofSignificand F s e n).fieldSignificand = n := by
  have hu := F.unit_pos
  unfold fieldSignificand
  rw [exponent_ofSignificand h s hmax, mantissa_ofSignificand h s hn]
  cases hi : F.implicitLeadingBit
  · simp
  · by_cases hlt : n < F.unit
    · simp [hlt, Nat.mod_eq_of_lt hlt]
    · have hmod : n % F.unit = n - F.unit := by
        rw [Nat.mod_eq_sub_mod (by omega), Nat.mod_eq_of_lt (by omega)]
      simp [hlt, hmod, show e ≠ 0 by omega]
      omega

include h he hmax hn hsub in
theorem fieldValue_ofSignificand :
    (ofSignificand F s e n).fieldValue =
      s.factor * n * 2 ^ ((e : ℤ) - F.bias - F.fractionWidth) := by
  have hexp : max ((if n < F.unit then 0 else e : ℕ) : ℤ) 1 = e := by
    split_ifs with hlt
    · have := hsub hlt
      omega
    · omega
  unfold fieldValue
  rw [fieldSignificand_ofSignificand h s he hmax hn, exponent_ofSignificand h s hmax,
    ofSignificand, sign_pack h.signBit, hexp]

include h hmax hn in
theorem isNormalized_ofSignificand (hi : F.implicitLeadingBit = false) :
    (ofSignificand F s e n).IsNormalized := by
  rw [IsNormalized, exponent_ofSignificand h s hmax, mantissa_ofSignificand h s hn]
  simp only [hi, Bool.false_eq_true, if_false]
  split_ifs with hlt
  · exact Or.inl rfl
  · exact Or.inr (Or.inl (not_lt.mp hlt))

end ofSignificand

end Pattern
end HartFloat
