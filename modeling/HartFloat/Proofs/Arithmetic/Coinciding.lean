import HartFloat.Proofs.Arithmetic.ExactNumber
import HartFloat.Proofs.Environment.Steps
import HartFloat.Proofs.Neighbour.Mirror
import HartFloat.Proofs.Rounding.Accuracy

/-!
# Operations that coincide

Some results can be computed by several operations, each of which looks at its operands in its own
way: a difference is the sum with the opposite operand, a fused operation with the factor one is a
sum, and with a zero as its last term it is a product. The zero has to be the one that does not turn
an exact product of zero around: the negative one, and the positive one when rounding is downward.
On operands other than NaNs such operations agree because they deliver the same exact result.
-/
namespace HartFloat

namespace Number

theorem product?_one (a : Number) : a.product? (finite .positive 1) = some a := by
  cases a with
  | infinite s => cases s <;> simp [product?, Sign.mul, Sign.flip]
  | finite s q => cases s <;> simp [product?, Sign.mul, Sign.flip]

theorem fusedMultiplyAdd_one (mode : RoundingMode) (a d : Number) :
    a.fusedMultiplyAdd mode (finite .positive 1) d = a.add mode d := by
  rw [fusedMultiplyAdd, product?_one]

theorem fusedMultiplyAdd_zero (mode : RoundingMode) (a b : Number) :
    a.fusedMultiplyAdd mode b
        (finite (if mode = .towardNegative then .positive else .negative) 0) = a.mul b := by
  rw [fusedMultiplyAdd, mul]
  cases a.product? b with
  | none => rfl
  | some p =>
    cases p with
    | infinite s => rfl
    | finite s q =>
      by_cases hq : q = 0
      · by_cases hmode : mode = .towardNegative <;> cases s <;> simp [add, hq, hmode]
      · simp [add, hq]

end Number

namespace Pattern

variable {F : Format} {x x' : Pattern F} {a : Number}

theorem IsOpposite.number? (hx : IsOpposite x x') (ha : x.number? = some a) :
    x'.number? = some a.neg := by
  have hfinite : x'.HasFiniteFields ↔ x.HasFiniteFields := by
    rw [HasFiniteFields, HasFiniteFields, hx.exponent]
  have hvalue : x'.fieldValue = -x.fieldValue := by
    rw [fieldValue, fieldValue, fieldSignificand, fieldSignificand, hx.exponent, hx.mantissa,
      hx.sign, Sign.factor_flip]
    push_cast
    ring
  cases a with
  | infinite s =>
    obtain ⟨he, hm, rfl⟩ := number?_eq_infinite ha
    rw [Pattern.number?, if_neg fun hf => hf (hx.exponent.trans he), hx.mantissa, if_pos hm,
      hx.sign]
    rfl
  | finite s q =>
    obtain ⟨hf, rfl, rfl⟩ := number?_eq_finite ha
    rw [Pattern.number?, if_pos (hfinite.mpr hf), hx.sign, hvalue]
    rfl

theorem number?_of_fieldValue_eq_one (hx : x.HasFiniteFields) (hone : x.fieldValue = 1) :
    x.number? = some (.finite .positive 1) := by
  have hnx : x.number? = some (.finite x.sign 1) := by
    rw [Pattern.number?, if_pos hx, hone]
  have hpos : (Number.finite .positive 1).IsSigned := by simp [Number.IsSigned, Sign.factor]
  rw [hnx, (isSigned_of_number? hnx).sign_unique hpos one_ne_zero]

theorem exists_fieldValue_eq_one (h : F.Regular) :
    ∃ x : Pattern F, x.HasFiniteFields ∧ x.fieldValue = 1 := by
  obtain ⟨x, hx, hvalue⟩ :=
    Format.two_zpow_mem_finiteValues h h.minExponent_le h.maxExponent_nonneg
  rw [zpow_zero] at hvalue
  exact ⟨x, hx, by exact_mod_cast hvalue⟩

end Pattern

namespace Stepwise

open EnvironmentM ExactResult Pattern

variable {F : Format}

def Coincide (env : Environment) (steps steps' : EnvironmentM (Pattern F)) : Prop :=
  ∃ y f, steps env = .ok (y, env.raise f) ∧ steps' env = .ok (y, env.raise f)

theorem Coincide.of_outcome {env : Environment} {steps steps' : EnvironmentM (Pattern F)}
    (h : F.Regular) (hwidth : F.exponentWidth ≤ 63) {c : Context} {r : ExactResult}
    (hsteps : EndsIn steps env (r.outcome F c)) (hsteps' : EndsIn steps' env (r.outcome F c)) :
    Coincide env steps steps' := by
  obtain ⟨y, f, ho, -⟩ := r.isOutcome_outcome h hwidth c
  rw [ho] at hsteps hsteps'
  exact ⟨y, f, hsteps.eq_ok, hsteps'.eq_ok⟩

/-- The operations that coincide on the three operands in an environment. -/
structure CoincidingOperations (env : Environment) (mode? : Option RoundingMode)
    (x y z : Pattern F) : Prop where
  sub_add_negate : ∃ y', y.negate = .ok y' ∧ Coincide env (sub mode? x y) (add mode? x y')
  fused_one_add : ∀ u : Pattern F, u.HasFiniteFields → u.fieldValue = 1 →
    Coincide env (fusedMultiplyAdd mode? x u z) (add mode? x z)
  fused_zero_mul : ∃ w,
    Pattern.zero F (if mode?.getD env.mode = .towardNegative then .positive else .negative) =
      .ok w ∧ Coincide env (fusedMultiplyAdd mode? x y w) (mul mode? x y)

/-- Where the exponents fit and the operands are not NaNs, a difference is the sum with the
opposite, a fused operation with the factor one is a sum, and one with the neutral zero is a
product; and the format has a one. -/
theorem coincidingOperations (h : F.Regular) (hi : F.implicitLeadingBit = true)
    (hwidth : F.exponentWidth ≤ 63) (env : Environment) (mode? : Option RoundingMode)
    {x y z : Pattern F} (hx : x.isNaN = false) (hy : y.isNaN = false) (hz : z.isNaN = false) :
    CoincidingOperations env mode? x y z ∧
      ∃ u : Pattern F, u.HasFiniteFields ∧ u.fieldValue = 1 := by
  obtain ⟨a, ha⟩ := exists_number?_of_not_isNaN h hx
  obtain ⟨b, hb⟩ := exists_number?_of_not_isNaN h hy
  obtain ⟨d, hd⟩ := exists_number?_of_not_isNaN h hz
  let c := env.toContext.override mode?
  have hadd : EndsIn (add mode? x z) env ((a.add c.mode d).outcome F c) := by
    rw [← add_eq h hi hwidth ha hd]
    exact endsIn_add x z
  have hmul : EndsIn (mul mode? x y) env ((a.mul b).outcome F c) := by
    rw [← mul_eq h hi hwidth ha hb]
    exact endsIn_mul x y
  refine ⟨⟨⟨_, negate_eq h y, ?_⟩, fun u hu hone => ?_, ⟨_, signed_eq h _ 0 0, ?_⟩⟩,
    exists_fieldValue_eq_one h⟩
  · have hsub : EndsIn (sub mode? x y) env ((a.sub c.mode b).outcome F c) := by
      rw [← sub_eq h hi hwidth ha hb]
      exact endsIn_sub x y
    refine .of_outcome h hwidth hsub ?_
    rw [Number.sub, ← add_eq h hi hwidth ha ((isOpposite_negate h y).number? hb)]
    exact endsIn_add x _
  · refine .of_outcome h hwidth ?_ hadd
    rw [← Number.fusedMultiplyAdd_one,
      ← fusedMultiplyAdd_eq h hi hwidth ha (number?_of_fieldValue_eq_one hu hone) hd]
    exact endsIn_fusedMultiplyAdd x u z
  · refine .of_outcome h hwidth ?_ hmul
    rw [← Number.fusedMultiplyAdd_zero c.mode,
      ← fusedMultiplyAdd_eq h hi hwidth ha hb (number?_pack_zero h _)]
    exact endsIn_fusedMultiplyAdd x y _

/-- In half precision, downward, with the operands 0, -1 and 0. -/
theorem coincidingOperations_half :
    let F : Format := { exponentWidth := 5, mantissaWidth := 10 }
    let x := pack F .positive 0 0
    let y := pack F .negative 15 0
    (F.Regular ∧ F.implicitLeadingBit = true ∧ F.exponentWidth ≤ 63 ∧ x.isNaN = false ∧
        y.isNaN = false) ∧
      CoincidingOperations default (some .towardNegative) x y x ∧
        ∃ u : Pattern F, u.HasFiniteFields ∧ u.fieldValue = 1 := by
  intro F x y
  have h : F.Regular := ⟨rfl, by decide, by decide⟩
  have hx : x.isNaN = false := by decide +kernel
  have hy : y.isNaN = false := by decide +kernel
  exact ⟨⟨h, rfl, by decide, hx, hy⟩,
    coincidingOperations h rfl (by decide) default (some .towardNegative) hx hy hx⟩

/-- With 65 bits of exponent the product of zero and one is zero, whereas the fused operation that
adds a zero to it needs the value of the one. -/
theorem fused_product_may_fail :
    ¬∀ F : Format, F.Regular → F.implicitLeadingBit = true → ∀ (env : Environment)
      (mode? : Option RoundingMode) (x y z : Pattern F), x.isNaN = false → y.isNaN = false →
        z.isNaN = false → ∀ w, Pattern.zero F
          (if mode?.getD env.mode = .towardNegative then .positive else .negative) = .ok w →
            fusedMultiplyAdd mode? x y w env = mul mode? x y env := by
  intro hall
  let F : Format := { exponentWidth := 65, mantissaWidth := 2 }
  let x := pack F .positive 0 0
  let one := pack F .positive F.bias 0
  let w := pack F .negative 0 0
  have hmul : mul none x one default = .ok (x, default) := by decide +kernel
  have hfused : fusedMultiplyAdd none x one w default = .error .exponentTooWide := by
    decide +kernel
  have heq := hall F ⟨rfl, by decide, by decide⟩ rfl default none x one x (by decide +kernel)
    (by decide +kernel) (by decide +kernel) w (by decide +kernel)
  rw [hmul, hfused] at heq
  cases heq

/-- The zero that is not neutral turns the sign of the product around. -/
example :
    let F : Format := { exponentWidth := 5, mantissaWidth := 10 }
    let x := pack F .positive 0 0
    let y := pack F .negative 15 0
    mul none x y default = .ok (pack F .negative 0 0, default) ∧
      fusedMultiplyAdd none x y x default = .ok (x, default) := by
  decide +kernel

end Stepwise
end HartFloat
