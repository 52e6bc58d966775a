import HartFloat.Proofs.Arithmetic.Unsigned
import HartFloat.Proofs.NaN.Propagation
import HartFloat.Proofs.Neighbour.Magnitude

/-!
# The next pattern

The neighbour of a pattern in a direction stands for the next value of the format, infinities
included; at the end of the range a pattern is its own neighbour. For a finite pattern in normal
form the search gives the neighbour, with one exception in formats that write the leading bit out:
the least normal number has no neighbour on the side of zero, since what is found there lies farther
from zero.
-/
namespace HartFloat

theorem NumberClass.isInfinity_withSign (k : NumberClass) (s : Sign) :
    (k.withSign s).isInfinity = k.isInfinity := by
  cases s <;> cases k <;> rfl

theorem Sign.infinity_injective {s t : Sign} (h : s.infinity = t.infinity) : s = t := by
  cases s <;> cases t <;> simp_all [infinity]

namespace Pattern

open ExactResult (signed_eq)

variable {F : Format} {x y : Pattern F} {d : Direction} {a b v : EReal}

/-- The second pattern stands for the next value of the format after the first one in the
direction, or both stand for the infinity in which the direction ends. -/
def IsNeighbour (d : Direction) (x y : Pattern F) : Prop :=
  ∃ v w, x.extended? = some v ∧ y.extended? = some w ∧
    if v = d.sign.infinity then w = v else F.IsNext d v w

theorem isInfinity_iff (h : F.Regular) :
    x.isInfinity = true ↔ x.exponent = F.infinityExponent ∧ x.mantissa = 0 := by
  have hne := h.infinityExponent_ne_zero
  rw [isInfinity, classify, NumberClass.isInfinity_withSign, magnitudeClass]
  split_ifs with he hm
  · exact iff_of_false (by decide) fun hx => hne (hx.1.symm.trans he)
  all_goals simp_all +decide

theorem isZero_iff_of_finite (hx : x.HasFiniteFields) :
    x.isZero = true ↔ x.fieldSignificand = 0 := by
  have hu := F.unit_pos
  rw [isZero, classify, NumberClass.isZero_withSign, magnitudeClass, fieldSignificand,
    if_neg (show ¬x.exponent = F.infinityExponent from hx)]
  split_ifs <;> simp_all +decide
  omega

theorem extended?_of_infinite (hexp : x.exponent = F.infinityExponent) (hm : x.mantissa = 0) :
    x.extended? = some x.sign.infinity := by
  have hx : ¬x.HasFiniteFields := not_not.mpr hexp
  rw [extended?, if_neg hx, if_pos hm]

theorem isNaN_of_extended? (hv : x.extended? = some v) : x.isNaN = false := by
  rw [Bool.eq_false_iff, ne_eq, isNaN_iff]
  rintro ⟨-, hexp, hm⟩
  have hx : ¬x.HasFiniteFields := not_not.mpr hexp
  rw [extended?, if_neg hx, if_neg hm] at hv
  cases hv

theorem mem_extendedValues_of_extended? (hv : x.extended? = some v) : v ∈ F.extendedValues := by
  rw [extended?] at hv
  split_ifs at hv with hx hm
  · cases hv
    exact Format.coe_mem_extendedValues ⟨x, hx, rfl⟩
  · cases hv
    cases x.sign
    · exact Or.inr (Or.inl rfl)
    · exact Or.inl rfl

theorem isNeighbour_of_isNext (hx : x.extended? = some a) (hy : y.extended? = some b)
    (ha : a ≠ d.sign.infinity) (hab : F.IsNext d a b) : IsNeighbour d x y :=
  ⟨a, b, hx, hy, by rwa [if_neg ha]⟩

theorem isNext_of_isNeighbour (hx : x.extended? = some a) (hy : y.extended? = some b)
    (ha : a ≠ d.sign.infinity) (hxy : IsNeighbour d x y) : F.IsNext d a b := by
  obtain ⟨v, w, hv, hw, hvw⟩ := hxy
  obtain rfl := Option.some.inj (hx.symm.trans hv)
  obtain rfl := Option.some.inj (hy.symm.trans hw)
  rwa [if_neg ha] at hvw

theorem orient_coe_ne_infinity (s t : Sign) (r : ℝ) : s.orient r ≠ t.infinity := by
  rw [Sign.orient_coe]
  exact (Format.infinity_ne_coe t _).symm

section

variable (h : F.Regular)

include h

theorem next_of_infinite (hexp : x.exponent = F.infinityExponent) (hm : x.mantissa = 0)
    (d : Direction) :
    x.next d = .ok
      (if x.sign = d.sign then x else pack F x.sign F.maxNormalExponent F.maxMantissa, ∅) := by
  have hinf : x.isInfinity = true := (isInfinity_iff h).mpr ⟨hexp, hm⟩
  simp only [next, isNaN_of_isInfinity hinf, hinf, maxNormal, signed_eq h, Bool.false_eq_true,
    if_false, if_true]
  split_ifs
  · rfl
  · rfl

theorem exists_next_of_infinite (hexp : x.exponent = F.infinityExponent) (hm : x.mantissa = 0)
    (d : Direction) : ∃ y, x.next d = .ok (y, ∅) ∧ IsNeighbour d x y := by
  have hvalue := extended?_of_infinite hexp hm
  refine ⟨_, next_of_infinite h hexp hm d, ?_⟩
  split_ifs with hs
  · exact ⟨_, _, hvalue, hvalue, by rw [hs, if_pos rfl]⟩
  · have hlargest : (pack F x.sign F.maxNormalExponent F.maxMantissa).extended? =
        some (x.sign.orient F.largest) := by
      rw [Format.extended?_of_finite (Format.hasFiniteFields_maxMantissa h _),
        Format.fieldValue_maxMantissa h, Sign.orient_coe]
    refine isNeighbour_of_isNext hvalue hlargest (mt Sign.infinity_injective hs) ?_
    rw [← Sign.orient_top]
    exact (Format.adjacent_largest_top h).isNext_inward h hs

theorem next_of_nonzero (hx : x.HasFiniteFields) (hne : x.fieldSignificand ≠ 0) (d : Direction) :
    x.next d = if x.sign = d.sign then quietly x.awayFromZero else .ok (x.towardZero, ∅) := by
  have hnan : x.isNaN = false := isNaN_of_extended? (extended?_eq_orient hx)
  have hinf : x.isInfinity = false := by
    rw [Bool.eq_false_iff, ne_eq, isInfinity_iff h]
    exact fun hinf => hx hinf.1
  have hzero : x.isZero = false := by
    rwa [Bool.eq_false_iff, ne_eq, isZero_iff_of_finite hx]
  simp only [next, hnan, hinf, hzero, Bool.false_eq_true, if_false]

theorem precedes_pack_one (hx : x.HasFiniteFields) (hform : x.IsInNormalForm)
    (hzero : x.fieldSignificand = 0) (s : Sign) : x.Precedes (pack F s 0 1) := by
  have hlt := Nat.two_pow_pos F.exponentWidth
  have hstep : pack F s 0 1 = (pack F s 0 0).withFields 0 1 := by
    rw [withFields_eq_pack _ h.signBit, sign_pack h.signBit]
  refine ⟨hx, hform.leads, ?_⟩
  rw [hstep, magnitude, fieldSignificand_withFields _ hlt h.one_lt_two_pow_mantissaWidth,
    binade_withFields _ hlt, binade, hform.exponent_eq_zero hzero, hzero]
  simp

theorem exists_next_of_zero (hx : x.HasFiniteFields) (hform : x.IsInNormalForm)
    (hzero : x.fieldSignificand = 0) (d : Direction) :
    x.next d = .ok (pack F d.sign 0 1, ∅) ∧ IsNeighbour d x (pack F d.sign 0 1) := by
  have hvalue := extended?_eq_orient hx
  have hclass : x.isZero = true := (isZero_iff_of_finite hx).mpr hzero
  obtain ⟨hnan, hinf⟩ := isFinite_iff.mp (x.classify.isFinite_of_isZero hclass)
  constructor
  · simp only [next, hnan, hinf, hclass, minSubnormal, signed_eq h, Bool.false_eq_true, if_false,
      if_true]
    rfl
  · have hy : (pack F d.sign 0 1).HasFiniteFields :=
      hasFiniteFields_of_exponent_eq_zero h (by rw [exponent_pack, Nat.zero_mod])
    have hadjacent := (precedes_pack_one h hx hform hzero d.sign).adjacent h hy
    have hsame : x.sign.orient x.magnitude = d.sign.orient x.magnitude := by
      rw [magnitude, hzero, Sign.orient_coe, Sign.orient_coe]
      simp
    refine isNeighbour_of_isNext hvalue (extended?_eq_orient hy) (orient_coe_ne_infinity _ _ _) ?_
    rw [hsame, sign_pack h.signBit]
    exact hadjacent.isNext_outward h d

theorem exists_next_of_sign_eq (hx : x.HasFiniteFields) (hform : x.IsInNormalForm)
    (hne : x.fieldSignificand ≠ 0) (hs : x.sign = d.sign) :
    ∃ y, x.next d = .ok (y, ∅) ∧ IsNeighbour d x y := by
  have hvalue := extended?_eq_orient hx
  have houtward {b : EReal} (hab : F.Adjacent x.magnitude b) :
      F.IsNext d (x.sign.orient x.magnitude) (x.sign.orient b) := by
    rw [hs]
    exact hab.isNext_outward h d
  have hnext : x.next d = quietly x.awayFromZero := by
    rw [next_of_nonzero h hx hne, if_pos hs]
  rcases awayFromZero_eq h hx hform with ⟨hlargest, haway⟩ | ⟨y, haway, hsign, hy, hxy⟩
  · refine ⟨_, by rw [hnext, haway]; rfl, ?_⟩
    refine isNeighbour_of_isNext hvalue (Format.extended?_pack_infinity h x.sign)
      (orient_coe_ne_infinity _ _ _) ?_
    rw [← Sign.orient_top]
    exact houtward (hlargest ▸ Format.adjacent_largest_top h)
  · refine ⟨y, by rw [hnext, haway]; rfl, ?_⟩
    refine isNeighbour_of_isNext hvalue (extended?_eq_orient hy) (orient_coe_ne_infinity _ _ _) ?_
    rw [hsign]
    exact houtward (hxy.adjacent h hy)

/-- Against the direction of its sign a finite number is followed by one that is nearer to zero,
except for the least normal number of a format that writes the leading bit out. -/
theorem isNeighbour_towardZero_iff (hx : x.HasFiniteFields) (hform : x.IsInNormalForm)
    (hne : x.fieldSignificand ≠ 0) (hs : x.sign ≠ d.sign) :
    IsNeighbour d x x.towardZero ↔ ¬x.IsLeastWrittenNormal := by
  have hvalue := extended?_eq_orient hx
  constructor
  · intro hxy hleast
    obtain ⟨hexp, -, hlt⟩ := magnitude_towardZero_of_isLeastWrittenNormal h hleast
    have hy := hasFiniteFields_of_exponent_eq_zero h hexp
    have hnext := isNext_of_isNeighbour hvalue (extended?_eq_orient hy)
      (orient_coe_ne_infinity _ _ _) hxy
    rw [sign_towardZero] at hnext
    exact Format.not_isNext_of_lt (by exact_mod_cast hlt) hs hnext
  · intro hleast
    have hxy := towardZero_precedes h hx hform hne hleast
    refine isNeighbour_of_isNext hvalue (extended?_eq_orient hxy.finite)
      (orient_coe_ne_infinity _ _ _) ?_
    rw [sign_towardZero]
    exact (hxy.adjacent h hx).isNext_inward h hs

/-- A pattern in normal form is followed by another one in either direction, and without an
exception. That is the next value, except for the least normal number of a format that writes the
leading bit out, on the side of zero. -/
theorem exists_next (hx : x.HasFiniteFields) (hform : x.IsInNormalForm) (d : Direction) :
    ∃ y, x.next d = .ok (y, ∅) ∧
      (IsNeighbour d x y ↔ ¬(x.IsLeastWrittenNormal ∧ x.sign ≠ d.sign)) ∧
      (x.IsLeastWrittenNormal → x.sign ≠ d.sign → y = x.towardZero) := by
  by_cases hzero : x.fieldSignificand = 0
  · obtain ⟨hnext, hxy⟩ := exists_next_of_zero h hx hform hzero d
    have hleast : ¬x.IsLeastWrittenNormal := fun hleast => by
      have hexp := hform.exponent_eq_zero hzero
      rw [hleast.2.1] at hexp
      cases hexp
    exact ⟨_, hnext, iff_of_true hxy fun hl => hleast hl.1, fun hl => absurd hl hleast⟩
  by_cases hs : x.sign = d.sign
  · obtain ⟨y, hnext, hxy⟩ := exists_next_of_sign_eq h hx hform hzero hs
    exact ⟨y, hnext, iff_of_true hxy fun hl => hl.2 hs, fun _ hl => absurd hs hl⟩
  · refine ⟨_, (next_of_nonzero h hx hzero d).trans (if_neg hs), ?_, fun _ _ => rfl⟩
    rw [isNeighbour_towardZero_iff h hx hform hzero hs]
    exact not_congr ⟨fun hl => ⟨hl, hs⟩, fun hl => hl.1⟩

end

theorem abs_fieldValue (x : Pattern F) : |(x.fieldValue : ℝ)| = x.magnitude := by
  rw [fieldValue_eq_magnitude, abs_mul, Sign.abs_factor, one_mul, abs_of_nonneg]
  exact mul_nonneg (Nat.cast_nonneg _) Format.spacing_pos.le

section

variable (hi : F.implicitLeadingBit = false)

include hi

theorem isInNormalForm_of_written (hform : x.exponent = 0 ↔ x.mantissa < F.unit) :
    x.IsInNormalForm := by
  rw [IsInNormalForm, fieldSignificand_eq_mantissa hi, ← not_lt]
  exact not_congr hform.symm

/-- In a regular format that writes the leading bit out, a finite pattern whose leading bit is set
exactly where the exponent field is not zero is followed in both directions by the next value,
except for the least normal number on the side of zero. There the mantissa field is filled at the
exponent field zero, which gives a number that is farther from zero. -/
theorem next_isNeighbour_iff (h : F.Regular) (hx : x.HasFiniteFields)
    (hform : x.exponent = 0 ↔ x.mantissa < F.unit) (d : Direction) :
    ∃ y, x.next d = .ok (y, ∅) ∧
      (IsNeighbour d x y ↔ ¬(x.exponent = 1 ∧ x.mantissa = F.unit ∧ x.sign ≠ d.sign)) ∧
      (x.exponent = 1 → x.mantissa = F.unit → x.sign ≠ d.sign →
        y.sign = x.sign ∧ y.exponent = 0 ∧ y.mantissa = F.maxMantissa ∧
          |x.fieldValue| < |y.fieldValue|) := by
  obtain ⟨y, hnext, hneighbour, hstep⟩ := exists_next h hx (isInNormalForm_of_written hi hform) d
  refine ⟨y, hnext, ?_, fun hexp hm hs => ?_⟩
  · rw [hneighbour, IsLeastWrittenNormal, and_iff_right hi, and_assoc]
  · have hleast : x.IsLeastWrittenNormal := ⟨hi, hexp, hm⟩
    obtain ⟨hexp', hm', hlt⟩ := magnitude_towardZero_of_isLeastWrittenNormal h hleast
    rw [← abs_fieldValue, ← abs_fieldValue] at hlt
    rw [hstep hleast hs]
    exact ⟨sign_towardZero x, hexp', hm', by exact_mod_cast hlt⟩

end

/-- In a half-precision format that writes the leading bit out, the least normal number and the
largest subnormal one below it. -/
theorem next_isNeighbour_iff_half :
    let F : Format := { exponentWidth := 5, mantissaWidth := 11, implicitLeadingBit := false }
    let least := pack F .negative 1 0x400
    let below := pack F .negative 0 0x3ff
    F.implicitLeadingBit = false ∧ F.Regular ∧
      (least.HasFiniteFields ∧ (least.exponent = 0 ↔ least.mantissa < F.unit)) ∧
      (∃ y, least.next .down = .ok (y, ∅) ∧ IsNeighbour .down least y) ∧
      (∃ y, least.next .up = .ok (y, ∅) ∧ ¬IsNeighbour .up least y) ∧
      (below.HasFiniteFields ∧ (below.exponent = 0 ↔ below.mantissa < F.unit)) ∧
      ∃ y, below.next .down = .ok (y, ∅) ∧ IsNeighbour .down below y := by
  intro F least below
  have h : F.Regular := ⟨rfl, by decide, by decide⟩
  have hleast : least.HasFiniteFields ∧ (least.exponent = 0 ↔ least.mantissa < F.unit) := by
    decide +kernel
  have hbelow : below.HasFiniteFields ∧ (below.exponent = 0 ↔ below.mantissa < F.unit) := by
    decide +kernel
  obtain ⟨down, hdown, hnext, -⟩ := next_isNeighbour_iff rfl h hleast.1 hleast.2 .down
  obtain ⟨up, hup, hfails, -⟩ := next_isNeighbour_iff rfl h hleast.1 hleast.2 .up
  obtain ⟨down', hdown', hnext', -⟩ := next_isNeighbour_iff rfl h hbelow.1 hbelow.2 .down
  refine ⟨rfl, h, hleast, ⟨down, hdown, hnext.mpr (by decide +kernel)⟩, ⟨up, hup, ?_⟩, hbelow,
    down', hdown', hnext'.mpr (by decide +kernel)⟩
  rw [hfails]
  decide +kernel

/-- The next pattern down from the least normal number of such a format is greater. -/
theorem nextDown_exceeds_least_normal :
    ¬∀ F : Format, F.signBit = true → F.implicitLeadingBit = false → 2 ≤ F.exponentWidth →
      3 ≤ F.mantissaWidth → ∀ x : Pattern F, x.HasFiniteFields →
        (x.exponent = 0 ↔ x.mantissa < F.unit) →
        ∀ d, ∃ y f, x.next d = .ok (y, f) ∧ IsNeighbour d x y := by
  intro hall
  let F : Format := { exponentWidth := 5, mantissaWidth := 11, implicitLeadingBit := false }
  let x := pack F .positive 1 0x400
  have h : F.Regular := ⟨rfl, by decide, by decide⟩
  have hx : x.HasFiniteFields := by decide +kernel
  have hform : x.exponent = 0 ↔ x.mantissa < F.unit := by decide +kernel
  have hleast : x.IsLeastWrittenNormal := ⟨rfl, by decide +kernel, by decide +kernel⟩
  obtain ⟨y, f, hy, hxy⟩ := hall F rfl rfl (by decide) (by decide) x hx hform .down
  obtain ⟨y', hy', hneighbour, -⟩ := exists_next h hx (isInNormalForm_of_written rfl hform) .down
  rw [hy', Except.ok.injEq, Prod.mk.injEq] at hy
  obtain ⟨rfl, -⟩ := hy
  exact hneighbour.mp hxy ⟨hleast, by decide +kernel⟩

end Pattern
end HartFloat
