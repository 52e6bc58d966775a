import HartFloat.Pattern.Compare
import HartFloat.Proofs.Neighbour.Normalization

/-!
# Unnormalized patterns

In a format that writes the leading bit out the same number may be written with different exponent
fields. The class is found by a search for the leading bit, which amounts to comparing the number
with the least normal one; only the exponent field zero is that of no normal number, whatever the
mantissa. The value is computed from the class, and for a subnormal with the exponent field one in
place of its own. Patterns of one number therefore agree in class, but not always in value.
-/
namespace HartFloat

/-- How a number of the sign compares with one of the same sign that is farther from zero. -/
def Sign.outward : Sign → Ordering
  | positive => .lt
  | negative => .gt

theorem NumberClass.withSign_inj {k l : NumberClass} {s : Sign} :
    k.withSign s = l.withSign s ↔ k = l := by
  cases s
  · rfl
  · exact ⟨fun h => by rw [← k.neg_neg, ← l.neg_neg]; exact congrArg neg h, congrArg neg⟩

theorem NumberClass.isSubnormal_withSign (k : NumberClass) (s : Sign) :
    (k.withSign s).isSubnormal = k.isSubnormal := by
  cases s <;> cases k <;> rfl

theorem NumberClass.isNormal_withSign (k : NumberClass) (s : Sign) :
    (k.withSign s).isNormal = k.isNormal := by
  cases s <;> cases k <;> rfl

namespace Format

/-- The class at which the search for the leading bit arrives. The mantissa is shifted up, and the
exponent field decreased, until the leading bit is set or the exponent field is used up. -/
inductive Finds (F : Format) : ℕ → ℕ → NumberClass → Prop
  | leading {e m} (hm : F.unit ≤ m) : Finds F e m .positiveNormal
  | usedUp {m} (hm : m < F.unit) : Finds F 1 m .positiveSubnormal
  | shift {e m k} (hm : m < F.unit) (he : e ≠ 0) (hnext : Finds F e (2 * m) k) :
      Finds F (e + 1) m k

variable {F : Format} {e m : ℕ} {k : NumberClass}

theorem two_mul_mul_two_pow (he : e ≠ 0) (m : ℕ) : 2 * m * 2 ^ (e - 1) = m * 2 ^ e := by
  rw [Nat.mul_comm 2, Nat.mul_assoc, ← Nat.pow_succ', Nat.succ_eq_add_one, Nat.sub_one_add_one he]

theorem Finds.eq (h : F.Finds e m k) :
    k = if m * 2 ^ (e - 1) < F.unit then .positiveSubnormal else .positiveNormal := by
  induction h with
  | leading hm => rw [if_neg (hm.trans (Nat.le_mul_of_pos_right _ (Nat.two_pow_pos _))).not_gt]
  | usedUp hm => rw [if_pos (by simpa using hm)]
  | shift hm he hnext ih => rwa [two_mul_mul_two_pow he] at ih

theorem exists_finds (he : e ≠ 0) (m : ℕ) : ∃ k, F.Finds e m k := by
  induction e generalizing m with
  | zero => exact absurd rfl he
  | succ e ih =>
    rcases Nat.lt_or_ge m F.unit with hm | hm
    · rcases Nat.eq_zero_or_pos e with rfl | hpos
      · exact ⟨_, .usedUp hm⟩
      · obtain ⟨k, hk⟩ := ih hpos.ne' (2 * m)
        exact ⟨k, .shift hm hpos.ne' hk⟩
    · exact ⟨_, .leading hm⟩

/-- The search comes to an end, and at one class only. -/
theorem finds_iff (he : e ≠ 0) :
    F.Finds e m k ↔
      k = if m * 2 ^ (e - 1) < F.unit then .positiveSubnormal else .positiveNormal := by
  refine ⟨Finds.eq, fun hk => ?_⟩
  obtain ⟨k', hk'⟩ := exists_finds (F := F) he m
  rwa [hk, ← hk'.eq]

theorem abs_ofHalves (s : Sign) (n : ℕ) :
    |F.ofHalves s n| = n * 2 ^ (-(F.bias : ℤ) - F.fractionWidth) := by
  rw [ofHalves, abs_mul, abs_mul, s.abs_factor, one_mul, Nat.abs_cast, abs_of_pos (by positivity)]

theorem two_zpow_minExponent :
    (2 : ℚ) ^ F.minExponent = (2 * F.unit : ℕ) * 2 ^ (-(F.bias : ℤ) - F.fractionWidth) := by
  rw [unit, minExponent, ← Nat.pow_succ', Nat.cast_pow, Nat.cast_ofNat, ← zpow_natCast,
    ← zpow_add₀ two_ne_zero]
  congr 1
  push_cast
  ring

theorem abs_ofHalves_lt_iff (s : Sign) (n : ℕ) :
    |F.ofHalves s n| < 2 ^ F.minExponent ↔ n < 2 * F.unit := by
  rw [abs_ofHalves, two_zpow_minExponent, mul_lt_mul_iff_left₀ (by positivity), Nat.cast_lt]

end Format

namespace Pattern

variable {F : Format} {x y : Pattern F}

section

variable (hi : F.implicitLeadingBit = false)

include hi

theorem abs_fieldValue_lt_iff (x : Pattern F) :
    |x.fieldValue| < 2 ^ F.minExponent ↔ x.mantissa * 2 ^ (max x.exponent 1 - 1) < F.unit := by
  have hsplit := Format.two_mul_mul_two_pow (e := max x.exponent 1) (by omega) x.mantissa
  rw [fieldValue_of_written hi, Format.abs_ofHalves_lt_iff, ← hsplit, Nat.mul_assoc,
    Nat.mul_lt_mul_left two_pos]

variable (hw : F.mantissaWidth ≠ 0) (hx : x.HasFiniteFields)

include hw hx

theorem classify_of_written :
    x.classify =
      (if x.mantissa = 0 then NumberClass.positiveZero
        else if x.exponent = 0 ∨ x.mantissa * 2 ^ (x.exponent - 1) < F.unit then .positiveSubnormal
        else .positiveNormal).withSign x.sign := by
  have hsub := (isSubnormalOrZero_iff hi hw hx).trans (normalize_exponent_eq_zero_iff hi hw hx)
  obtain ⟨hclass, hm⟩ | ⟨hclass, hm⟩ | ⟨hclass, hm⟩ :=
    classify_of_isFinite (isFinite_of_hasFiniteFields hx) <;>
    rw [hclass, NumberClass.isSubnormalOrZero_withSign] at hsub
  · rw [hclass, if_pos hm]
  · rw [hclass, if_neg hm, if_pos (hsub.mp rfl)]
  · have hm' : x.mantissa ≠ 0 := hm.resolve_left (by simp [hi])
    rw [hclass, if_neg hm', if_neg (mt hsub.mpr (by decide))]

/-- The search finds the class of a pattern for which there is one. -/
theorem finds_iff_classify_eq (he : x.exponent ≠ 0) (hm : x.mantissa ≠ 0) (k : NumberClass) :
    F.Finds x.exponent x.mantissa k ↔ x.classify = k.withSign x.sign := by
  rw [Format.finds_iff he, classify_of_written hi hw hx, if_neg hm,
    if_congr (or_iff_right he) rfl rfl, NumberClass.withSign_inj, eq_comm]

theorem classify_eq_of_fieldValue :
    x.classify =
      (if x.fieldValue = 0 then NumberClass.positiveZero
        else if x.exponent = 0 ∨ |x.fieldValue| < 2 ^ F.minExponent then .positiveSubnormal
        else .positiveNormal).withSign x.sign := by
  have hzero : x.fieldValue = 0 ↔ x.mantissa = 0 := by
    rw [fieldValue_eq_zero_iff, fieldSignificand_eq_mantissa hi]
  have htiny : x.exponent = 0 ∨ |x.fieldValue| < 2 ^ F.minExponent ↔
      x.exponent = 0 ∨ x.mantissa * 2 ^ (x.exponent - 1) < F.unit := by
    rw [abs_fieldValue_lt_iff hi]
    refine or_congr_right' fun he => ?_
    rw [max_eq_left (Nat.one_le_iff_ne_zero.mpr he)]
  rw [classify_of_written hi hw hx, if_congr hzero rfl (if_congr htiny rfl rfl)]

end

/-- The class of a finite pattern is that of the number that its fields stand for, except that a
pattern with the exponent field zero is never normal. -/
structure IsClassifiedByMagnitude (x : Pattern F) : Prop where
  finds : x.exponent ≠ 0 → x.mantissa ≠ 0 →
    ∀ k, F.Finds x.exponent x.mantissa k ↔ x.classify = k.withSign x.sign
  sign : x.classify.sign? = some x.sign
  zero : x.classify.isZero = true ↔ x.fieldValue = 0
  subnormal : x.classify.isSubnormal = true ↔
    x.fieldValue ≠ 0 ∧ (|x.fieldValue| < 2 ^ F.minExponent ∨ x.exponent = 0)
  normal : x.classify.isNormal = true ↔ 2 ^ F.minExponent ≤ |x.fieldValue| ∧ x.exponent ≠ 0
  determined : ∀ y : Pattern F, y.HasFiniteFields → y.sign = x.sign →
    |y.fieldValue| = |x.fieldValue| → (y.exponent = 0 ↔ x.exponent = 0) → y.classify = x.classify

/-- In a format that writes the leading bit out, the search for the leading bit of a finite pattern
comes to an end at its class. The class is that of a zero, of a number below the least normal one or
of one that is not, where a pattern with the exponent field zero never counts as normal. -/
theorem isClassifiedByMagnitude (hi : F.implicitLeadingBit = false) (hw : F.mantissaWidth ≠ 0)
    (hx : x.HasFiniteFields) : IsClassifiedByMagnitude x where
  finds he hm := finds_iff_classify_eq hi hw hx he hm
  sign := by
    rw [classify_eq_of_fieldValue hi hw hx]
    split_ifs <;> cases x.sign <;> rfl
  zero := by
    rw [classify_eq_of_fieldValue hi hw hx, NumberClass.isZero_withSign]
    split_ifs with hv
    · exact iff_of_true rfl hv
    · exact iff_of_false (by decide) hv
    · exact iff_of_false (by decide) hv
  subnormal := by
    rw [classify_eq_of_fieldValue hi hw hx, NumberClass.isSubnormal_withSign]
    split_ifs with hv hsub
    · exact iff_of_false (by decide) fun h => h.1 hv
    · exact iff_of_true rfl ⟨hv, hsub.symm⟩
    · exact iff_of_false (by decide) fun h => hsub h.2.symm
  normal := by
    rw [classify_eq_of_fieldValue hi hw hx, NumberClass.isNormal_withSign, ← not_lt, ne_eq,
      and_comm, ← not_or]
    split_ifs with hv hsub
    · refine iff_of_false (by decide) fun h => h (Or.inr ?_)
      rw [hv, abs_zero]
      positivity
    · exact iff_of_false (by decide) fun h => h hsub
    · exact iff_of_true rfl hsub
  determined y hy hsign habs he := by
    have hzero : y.fieldValue = 0 ↔ x.fieldValue = 0 := by rw [← abs_eq_zero, habs, abs_eq_zero]
    rw [classify_eq_of_fieldValue hi hw hx, classify_eq_of_fieldValue hi hw hy, hsign, habs,
      if_congr hzero rfl (if_congr (or_congr_left he) rfl rfl)]

/-- In a half-precision format that writes the leading bit out, a normal number whose leading bit is
two places up, and a number of the size of the least normal one with the exponent field zero. -/
theorem isClassifiedByMagnitude_half :
    let F : Format := { exponentWidth := 5, mantissaWidth := 11, implicitLeadingBit := false }
    let normal := pack F .negative 3 0x100
    let subnormal := pack F .positive 0 0x400
    F.implicitLeadingBit = false ∧ F.mantissaWidth ≠ 0 ∧
      (normal.HasFiniteFields ∧ IsClassifiedByMagnitude normal ∧
        F.Finds 3 0x100 .positiveNormal ∧ normal.classify = .negativeNormal) ∧
      subnormal.HasFiniteFields ∧ IsClassifiedByMagnitude subnormal ∧
        subnormal.classify = .positiveSubnormal := by
  intro F normal subnormal
  have hw : F.mantissaWidth ≠ 0 := by decide
  have hnormal : normal.HasFiniteFields := by decide +kernel
  have hsubnormal : subnormal.HasFiniteFields := by decide +kernel
  have hclass : normal.classify = NumberClass.positiveNormal.withSign normal.sign := by
    decide +kernel
  have hjudged := isClassifiedByMagnitude rfl hw hnormal
  have hfields : normal.exponent = 3 ∧ normal.mantissa = 0x100 := by decide +kernel
  have hfinds := (hjudged.finds (by decide +kernel) (by decide +kernel) _).mpr hclass
  rw [hfields.1, hfields.2] at hfinds
  exact ⟨rfl, hw, ⟨hnormal, hjudged, hfinds, by decide +kernel⟩, hsubnormal,
    isClassifiedByMagnitude rfl hw hsubnormal, by decide +kernel⟩

/-- With the exponent field zero the least normal number counts as subnormal. -/
theorem isSubnormal_of_least_normal_magnitude :
    ¬∀ F : Format, F.implicitLeadingBit = false → 2 ≤ F.exponentWidth → 2 ≤ F.mantissaWidth →
      ∀ x : Pattern F, x.HasFiniteFields →
        (x.classify.isZero = true ↔ x.fieldValue = 0) ∧
          (x.classify.isSubnormal = true ↔
            0 < |x.fieldValue| ∧ |x.fieldValue| < 2 ^ F.minExponent) ∧
          (x.classify.isNormal = true ↔ 2 ^ F.minExponent ≤ |x.fieldValue|) := by
  intro hall
  let F : Format := { exponentWidth := 5, mantissaWidth := 11, implicitLeadingBit := false }
  let x := pack F .positive 0 0x400
  have hclass : x.classify.isNormal = false := by decide +kernel
  have hlarge : 2 ^ F.minExponent ≤ |x.fieldValue| := by
    rw [← not_lt, abs_fieldValue_lt_iff rfl]
    decide +kernel
  have hnormal := (hall F rfl (by decide) (by decide) x (by decide +kernel)).2.2.mpr hlarge
  rw [hclass] at hnormal
  cases hnormal

/-- The second pattern has the mantissa of the first one shifted up by one place and an exponent
field that is smaller by one, but not zero. -/
structure ShiftsOnceTo (x y : Pattern F) : Prop where
  sign : y.sign = x.sign
  exponent : x.exponent = y.exponent + 1
  exponent_ne : y.exponent ≠ 0
  mantissa : y.mantissa = 2 * x.mantissa

namespace ShiftsOnceTo

variable (hxy : ShiftsOnceTo x y)

include hxy

theorem hasFiniteFields (hx : x.HasFiniteFields) : y.HasFiniteFields := by
  have hle := Format.lt_two_pow_iff.mp x.exponent_lt
  have hexp := hxy.exponent
  have hne : x.exponent ≠ F.infinityExponent := hx
  rw [HasFiniteFields]
  omega

theorem fieldValue (hi : F.implicitLeadingBit = false) : y.fieldValue = x.fieldValue := by
  have hy := hxy.exponent_ne
  rw [fieldValue_of_written hi, fieldValue_of_written hi, hxy.sign, hxy.mantissa, hxy.exponent,
    max_eq_left (by omega : 1 ≤ y.exponent), max_eq_left (by omega : 1 ≤ y.exponent + 1),
    Nat.pow_succ', Nat.mul_comm 2, Nat.mul_assoc]

theorem exponentsFit (hfit : x.ExponentsFit) : y.ExponentsFit := by
  have hexp := hxy.exponent
  exact ⟨by have := hfit.1; omega, hfit.2⟩

theorem isUnnormalizedSubnormal_iff : y.IsUnnormalizedSubnormal ↔ x.IsUnnormalizedSubnormal := by
  have hy := hxy.exponent_ne
  rw [IsUnnormalizedSubnormal, IsUnnormalizedSubnormal, hxy.mantissa, hxy.exponent,
    Nat.add_sub_cancel, Format.two_mul_mul_two_pow hy]
  constructor <;> rintro ⟨-, hm, hlt⟩ <;> exact ⟨by omega, by omega, hlt⟩

end ShiftsOnceTo

theorem factor_mul_value_pos (hne : x.value ≠ 0) : 0 < x.sign.factor * x.value := by
  have hsquare : (x.sign.factor : ℚ) * x.sign.factor = 1 := by
    exact_mod_cast x.sign.factor_mul_self
  rw [value_eq] at hne ⊢
  rw [← mul_assoc, ← mul_assoc, hsquare, one_mul]
  have hsig : x.significand ≠ 0 := fun hzero => hne (by simp [hzero])
  have hsig' : (0 : ℚ) < x.significand := by exact_mod_cast Nat.pos_of_ne_zero hsig
  positivity

theorem compareRat_two_mul {s : Sign} {p : ℚ} (hp : 0 < s.factor * p) :
    compareRat p (2 * p) = s.outward := by
  cases s with
  | positive =>
    simp only [Sign.factor, Int.cast_one, one_mul] at hp
    rw [compareRat, if_pos (by linarith), Sign.outward]
  | negative =>
    simp only [Sign.factor, Int.cast_neg, Int.cast_one, neg_mul, one_mul] at hp
    rw [compareRat, if_neg (by linarith), if_neg (by linarith), Sign.outward]

theorem compare_of_isFinite (hx : x.isFinite = true) (hy : y.isFinite = true)
    (hxfit : x.ExponentsFit) (hyfit : y.ExponentsFit) (quiet : Bool) :
    x.compare quiet y = .ok (some (compareRat x.value y.value), ∅) := by
  obtain ⟨hxnan, hxinf⟩ := isFinite_iff.mp hx
  obtain ⟨hynan, hyinf⟩ := isFinite_iff.mp hy
  simp [compare, order, hxnan, hynan, hxinf, hyinf, ratio_eq_of_fits hxfit, ratio_eq_of_fits hyfit,
    Except.bind, Except.map]

section

variable (hi : F.implicitLeadingBit = false) (hw : F.mantissaWidth ≠ 0) (hx : x.HasFiniteFields)

include hi hw hx

theorem value_of_shiftsOnceTo (hxy : ShiftsOnceTo x y) :
    y.value = if x.IsUnnormalizedSubnormal then 2 * x.value else x.value := by
  have hy := hxy.hasFiniteFields hx
  have hfields := hxy.fieldValue hi
  have hiff := hxy.isUnnormalizedSubnormal_iff
  split_ifs with hn
  · rw [fieldValue_eq_of_isUnnormalizedSubnormal hi hw hx hn,
      fieldValue_eq_of_isUnnormalizedSubnormal hi hw hy (hiff.mpr hn), hxy.exponent,
      Nat.add_sub_cancel, ← Nat.sub_one_add_one hxy.exponent_ne, pow_succ, Nat.add_sub_cancel,
      mul_assoc] at hfields
    exact mul_left_cancel₀ (by positivity) hfields
  · rwa [← value_eq_fieldValue_of_written hi hw hx hn,
      ← value_eq_fieldValue_of_written hi hw hy (mt hiff.mp hn)] at hfields

theorem value_ne_zero_of_isUnnormalizedSubnormal (hn : x.IsUnnormalizedSubnormal) :
    x.value ≠ 0 := by
  have hfields : x.fieldValue ≠ 0 := by
    rw [ne_eq, fieldValue_eq_zero_iff, fieldSignificand_eq_mantissa hi]
    exact hn.2.1
  rw [fieldValue_eq_of_isUnnormalizedSubnormal hi hw hx hn] at hfields
  exact right_ne_zero_of_mul hfields

theorem value_eq_fieldValue_iff :
    x.value = x.fieldValue ↔ ¬(x.IsUnnormalizedSubnormal ∧ x.exponent ≠ 1) := by
  by_cases hn : x.IsUnnormalizedSubnormal
  · have hvalue := value_ne_zero_of_isUnnormalizedSubnormal hi hw hx hn
    have hexp := hn.1
    rw [and_iff_right hn, not_not, fieldValue_eq_of_isUnnormalizedSubnormal hi hw hx hn,
      right_eq_mul₀ hvalue, ← pow_zero (2 : ℚ), pow_right_inj₀ two_pos (by norm_num)]
    omega
  · exact iff_of_true (value_eq_fieldValue_of_written hi hw hx hn) fun h => hn h.1

theorem compare_of_shiftsOnceTo (hxy : ShiftsOnceTo x y) (hfit : x.ExponentsFit) (quiet : Bool) :
    x.compare quiet y =
      .ok (some (if x.IsUnnormalizedSubnormal then x.sign.outward else .eq), ∅) := by
  rw [compare_of_isFinite (isFinite_of_hasFiniteFields hx)
    (isFinite_of_hasFiniteFields (hxy.hasFiniteFields hx)) hfit (hxy.exponentsFit hfit),
    value_of_shiftsOnceTo hi hw hx hxy]
  split_ifs with hn
  · have hne := value_ne_zero_of_isUnnormalizedSubnormal hi hw hx hn
    rw [compareRat_two_mul (factor_mul_value_pos hne)]
  · rw [compareRat, if_neg (lt_irrefl _), if_pos rfl]

end

end Pattern
end HartFloat
