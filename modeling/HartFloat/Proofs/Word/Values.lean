import HartFloat.Proofs.Arithmetic.Exceptions
import HartFloat.Proofs.Word.Fields

/-!
# The numbers that words stand for

A word stands for the number of the single-precision pattern it holds, and so for a point of the
extended real line. There the two zeros are the same point and the infinities are the ends; only
NaNs stand for no number.
-/
namespace HartFloat

namespace Number

/-- The number on the extended real line. -/
noncomputable def extended : Number → EReal
  | finite _ q => (q : ℝ)
  | infinite s => s.infinity

end Number

theorem Pattern.extended?_eq_map {F : Format} (x : Pattern F) :
    x.extended? = x.number?.map Number.extended := by
  unfold extended? number?
  split_ifs <;> rfl

namespace Backend.Soft

variable {w : Word} {a : Number}

theorem exists_number? (h : w.isNaN = false) : ∃ a, (ofWord w).number? = some a := by
  refine Pattern.exists_number?_of_not_isNaN Format.regular_binary32 ?_
  rwa [isNaN_ofWord]

theorem isNaN_of_number? (h : (ofWord w).number? = some a) : w.isNaN = false := by
  rw [← isNaN_ofWord]
  exact Pattern.isNaN_of_number? Format.regular_binary32 rfl h

end Backend.Soft

namespace Word

open Backend.Soft

variable {w : Word} {a : Number} {x : EReal}

/-- The extended real number that the word stands for, which NaNs do not have. -/
noncomputable def extended? (w : Word) : Option EReal := (ofWord w).extended?

theorem extended?_eq_some_iff :
    w.extended? = some x ↔ ∃ a, (ofWord w).number? = some a ∧ a.extended = x := by
  rw [extended?, Pattern.extended?_eq_map, Option.map_eq_some_iff]

theorem extended?_of_number? (h : (ofWord w).number? = some a) : w.extended? = some a.extended :=
  extended?_eq_some_iff.mpr ⟨a, h, rfl⟩

theorem isNaN_of_extended? (h : w.extended? = some x) : w.isNaN = false := by
  obtain ⟨a, ha, -⟩ := extended?_eq_some_iff.mp h
  exact isNaN_of_number? ha

theorem exists_extended? (h : w.isNaN = false) : ∃ x, w.extended? = some x := by
  obtain ⟨a, ha⟩ := exists_number? h
  exact ⟨a.extended, extended?_of_number? ha⟩

theorem number?_of_extended?_infinity {s : Sign} (h : w.extended? = some s.infinity) :
    (ofWord w).number? = some (.infinite s) := by
  obtain ⟨a, ha, hx⟩ := extended?_eq_some_iff.mp h
  cases a with
  | finite t q => exact absurd hx.symm (Format.infinity_ne_coe s q)
  | infinite t =>
    have hsign : t = s := by
      cases s <;> cases t <;> simp_all [Number.extended, Sign.infinity]
    rw [ha, hsign]

theorem number?_of_extended?_coe {v : ℝ} (h : w.extended? = some (v : EReal)) :
    ∃ s q, (ofWord w).number? = some (.finite s q) ∧ (q : ℝ) = v := by
  obtain ⟨a, ha, hx⟩ := extended?_eq_some_iff.mp h
  cases a with
  | finite s q => exact ⟨s, q, ha, EReal.coe_injective hx⟩
  | infinite s => exact absurd hx (Format.infinity_ne_coe s v)

theorem extended?_eq_zero_iff : w.extended? = some 0 ↔ w = 0 ∨ w = signMask := by
  constructor
  · intro h
    obtain ⟨-, hvalue⟩ := Format.fieldValue_of_extended? (v := 0) h
    have hsignificand := Pattern.fieldValue_eq_zero_iff.mp (Rat.cast_eq_zero.mp hvalue)
    obtain ⟨hexponent, hmantissa⟩ := (Pattern.fieldSignificand_eq_zero_iff rfl).mp hsignificand
    rw [exponent_ofWord] at hexponent
    rw [mantissa_ofWord] at hmantissa
    have hw := ofParts_parts w
    rw [BitVec.eq_of_toNat_eq (y := 0#8) hexponent,
      BitVec.eq_of_toNat_eq (y := 0#23) hmantissa] at hw
    rw [← hw, zero_eq, signMask_eq]
    generalize w.signBit = s
    revert s
    decide
  · have hzero (w : Word) (hfinite : (ofWord w).HasFiniteFields)
        (hsignificand : (ofWord w).fieldSignificand = 0) : w.extended? = some 0 := by
      rw [extended?, Format.extended?_of_finite hfinite,
        Pattern.fieldValue_eq_zero_iff.mpr hsignificand, Rat.cast_zero, EReal.coe_zero]
    rintro (rfl | rfl)
    · exact hzero 0 (by decide) (by decide)
    · exact hzero signMask (by decide) (by decide)

end Word
end HartFloat
