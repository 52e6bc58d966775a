import HartFloat.Proofs.Arithmetic.Negation
import HartFloat.Proofs.Neighbour.Next

/-!
# Neighbours in both directions

In a format with an implied leading bit every pattern but a NaN has a neighbour in either direction.
The way down is the way up seen from the other side of zero, and it leads back from the neighbour
above to the value, since adjacency does not depend on the side it is seen from.
-/
namespace HartFloat.Pattern

open ExactResult (signed_eq)

variable {F : Format} {x x' y y' : Pattern F} {v : EReal}

section

variable (h : F.Regular) (hi : F.implicitLeadingBit = true)

include h hi

theorem exists_isNeighbour (hx : x.isNaN = false) (d : Direction) :
    ∃ y, x.next d = .ok (y, ∅) ∧ IsNeighbour d x y := by
  by_cases hfinite : x.HasFiniteFields
  · obtain ⟨y, hnext, hxy, -⟩ :=
      exists_next h hfinite (unit_le_fieldSignificand_iff h hi x) d
    refine ⟨y, hnext, hxy.mpr fun hleast => ?_⟩
    rw [hleast.1.1] at hi
    cases hi
  · have hexp : x.exponent = F.infinityExponent := not_not.mp hfinite
    refine exists_next_of_infinite h hexp (by_contra fun hm => ?_) d
    rw [isNaN_iff.mpr ⟨h.infinityExponent_ne_zero, hexp, hm⟩] at hx
    cases hx

theorem exists_nextDown_of_nextUp (hv : x.extended? = some v) (hne : v ≠ ⊤)
    (hnext : x.nextUp = .ok (y, ∅)) : ∃ z, y.nextDown = .ok (z, ∅) ∧ z.extended? = some v := by
  obtain ⟨y', hy', hxy⟩ := exists_isNeighbour h hi (isNaN_of_extended? hv) .up
  obtain rfl : y = y' := by
    rw [nextUp, hy', Except.ok.injEq, Prod.mk.injEq] at hnext
    exact hnext.1.symm
  obtain ⟨v', w, hv', hw, hvw⟩ := id hxy
  have hadjacent : F.Adjacent v w := by
    have hup := isNext_of_isNeighbour (d := .up) hv hw hne hxy
    exact hup.adjacent (mem_extendedValues_of_extended? hv)
  obtain ⟨z, hz, hyz⟩ := exists_isNeighbour h hi (isNaN_of_extended? hw) .down
  obtain ⟨w', u, hw', hu, -⟩ := id hyz
  refine ⟨z, hz, ?_⟩
  have hbot : w ≠ ⊥ := (bot_le.trans_lt hadjacent.lt).ne'
  have hdown := isNext_of_isNeighbour (d := .down) hw hu hbot hyz
  rw [hu, hdown.unique hadjacent.isNext_down]

end

section

variable (h : F.Regular)

include h

theorem negate_eq (x : Pattern F) :
    x.negate = .ok (pack F x.sign.flip x.exponent x.mantissa) := by
  simp [negate, withSign, h.signBit]

theorem isOpposite_negate (x : Pattern F) :
    IsOpposite x (pack F x.sign.flip x.exponent x.mantissa) where
  sign := sign_pack h.signBit _ _ _
  exponent := by rw [exponent_pack, Nat.mod_eq_of_lt x.exponent_lt]
  mantissa := by rw [mantissa_pack, Nat.mod_eq_of_lt x.mantissa_lt]

theorem isOpposite_withFields (hx : IsOpposite x x') (e m : ℕ) :
    IsOpposite (x.withFields e m) (x'.withFields e m) := by
  rw [withFields_eq_pack _ h.signBit, withFields_eq_pack _ h.signBit, hx.sign]
  exact isOpposite_pack h.signBit _ _ _

theorem isOpposite_towardZero (hx : IsOpposite x x') : IsOpposite x.towardZero x'.towardZero := by
  rw [towardZero, towardZero, hx.exponent, hx.mantissa]
  split_ifs
  · exact isOpposite_withFields h hx _ _
  · exact isOpposite_withFields h hx _ _

theorem isOpposite_awayFromZero (hx : IsOpposite x x') :
    ∃ y y', quietly x.awayFromZero = .ok (y, ∅) ∧ quietly x'.awayFromZero = .ok (y', ∅) ∧
      IsOpposite y y' := by
  rw [awayFromZero, awayFromZero, hx.exponent, hx.mantissa, hx.sign, infinity, infinity,
    signed_eq h, signed_eq h]
  split_ifs
  · exact ⟨_, _, rfl, rfl, isOpposite_withFields h hx _ _⟩
  · exact ⟨_, _, rfl, rfl, isOpposite_pack h.signBit _ _ _⟩
  · exact ⟨_, _, rfl, rfl, isOpposite_withFields h hx _ _⟩

theorem isOpposite_next (hx : IsOpposite x x') (hnan : x.isNaN = false) :
    ∃ y y', x.nextDown = .ok (y, ∅) ∧ x'.nextUp = .ok (y', ∅) ∧ IsOpposite y y' := by
  have hnan' : x'.isNaN = false := hx.isNaN.trans hnan
  have hsign : x'.sign = Direction.up.sign ↔ x.sign = Direction.down.sign := by
    rw [hx.sign]
    cases x.sign <;> decide
  simp only [nextDown, nextUp, next, hnan, hnan', hx.isInfinity, hx.isZero, hsign, maxNormal,
    minSubnormal, signed_eq h, Bool.false_eq_true, if_false]
  split_ifs with hinf hs hzero hs
  · exact ⟨_, _, rfl, rfl, hx⟩
  · exact ⟨_, _, rfl, rfl, hx.sign ▸ isOpposite_pack h.signBit _ _ _⟩
  · exact ⟨_, _, rfl, rfl, isOpposite_pack h.signBit .negative 0 1⟩
  · exact isOpposite_awayFromZero h hx
  · exact ⟨_, _, rfl, rfl, isOpposite_towardZero h hx⟩

theorem exists_nextUp_of_negate (hnan : x.isNaN = false) (hdown : x.nextDown = .ok (y, ∅)) :
    ∃ x' y', x.negate = .ok x' ∧ x'.nextUp = .ok (y', ∅) ∧ y'.negate = .ok y := by
  obtain ⟨z, y', hz, hup, hopposite⟩ := isOpposite_next h (isOpposite_negate h x) hnan
  obtain rfl : y = z := by
    rw [hdown, Except.ok.injEq, Prod.mk.injEq] at hz
    exact hz.1
  have hback : IsOpposite y' y := by
    refine ⟨?_, hopposite.exponent.symm, hopposite.mantissa.symm⟩
    rw [hopposite.sign]
    cases y.sign <;> rfl
  refine ⟨_, y', negate_eq h x, hup, ?_⟩
  rw [negate_eq h, (isOpposite_negate h y').unique h.signBit hback]

end

theorem nextUp_of_top (h : F.Regular) (hx : x.extended? = some ⊤) : x.nextUp = .ok (x, ∅) := by
  have hfinite : ¬x.HasFiniteFields := fun hfinite => by
    rw [Format.extended?_of_finite hfinite, Option.some.injEq] at hx
    exact EReal.coe_ne_top _ hx
  have hm : x.mantissa = 0 := by
    by_contra hm
    rw [extended?, if_neg hfinite, if_neg hm] at hx
    cases hx
  have hexp : x.exponent = F.infinityExponent := not_not.mp hfinite
  rw [extended?_of_infinite hexp hm, Option.some.injEq] at hx
  have hsign : x.sign = Direction.up.sign := Sign.infinity_injective hx
  rw [nextUp, next_of_infinite h hexp hm, if_pos hsign]

theorem nextUp_of_largest_negative_subnormal (h : F.Regular) (hi : F.implicitLeadingBit = true) :
    (pack F .negative 0 1).nextUp = .ok (pack F .negative 0 0, ∅) := by
  have hexp : (pack F .negative 0 1).exponent = 0 := by simp
  have hm : (pack F .negative 0 1).mantissa = 1 := by
    rw [mantissa_pack, Nat.mod_eq_of_lt h.one_lt_two_pow_mantissaWidth]
  have hsign : (pack F .negative 0 1).sign = .negative := sign_pack h.signBit _ _ _
  have hfinite := hasFiniteFields_of_exponent_eq_zero h hexp
  have hne : (pack F .negative 0 1).fieldSignificand ≠ 0 := by
    rw [ne_eq, fieldSignificand_eq_zero_iff hi, hm]
    simp
  rw [nextUp, next_of_nonzero h hfinite hne, hsign, if_neg (by decide), towardZero, hexp, hm,
    if_pos (Or.inr rfl), withFields_eq_pack _ h.signBit, hsign]

theorem nextUp_of_isZero (h : F.Regular) (hi : F.implicitLeadingBit = true)
    (hx : x.isZero = true) : x.nextUp = .ok (pack F .positive 0 1, ∅) := by
  obtain ⟨hnan, hinf⟩ := isFinite_iff.mp (x.classify.isFinite_of_isZero hx)
  have hfinite : x.HasFiniteFields :=
    (exponent_lt_of_finite hnan hinf h.infinityExponent_ne_zero).ne
  exact (exists_next_of_zero h hfinite (unit_le_fieldSignificand_iff h hi x)
    ((isZero_iff_of_finite hfinite).mp hx) .up).1

/-- What is demanded of the patterns next to a pattern that is no NaN. -/
structure HasNeighbours (x up down : Pattern F) : Prop where
  nextUp : x.nextUp = .ok (up, ∅)
  nextDown : x.nextDown = .ok (down, ∅)
  isNeighbour_up : IsNeighbour .up x up
  isNeighbour_down : IsNeighbour .down x down
  of_infinity : x.extended? = some ⊤ → up = x
  of_largest_negative_subnormal : x = pack F .negative 0 1 → up = pack F .negative 0 0
  of_zero : x.isZero = true → up = pack F .positive 0 1
  mirror : ∃ x' y', x.negate = .ok x' ∧ x'.nextUp = .ok (y', ∅) ∧ y'.negate = .ok down
  down_up : x.extended? ≠ some ⊤ →
    ∃ z, up.nextDown = .ok (z, ∅) ∧ z.extended? = x.extended?

/-- In a regular format with an implied leading bit all patterns but NaNs have neighbours in both
directions, and no exception is raised in looking for them. -/
theorem exists_hasNeighbours (h : F.Regular) (hi : F.implicitLeadingBit = true)
    (hx : x.isNaN = false) : ∃ up down, HasNeighbours x up down := by
  obtain ⟨up, hup, hneighbourUp⟩ := exists_isNeighbour h hi hx .up
  obtain ⟨down, hdown, hneighbourDown⟩ := exists_isNeighbour h hi hx .down
  obtain ⟨v, -, hv, -⟩ := id hneighbourUp
  have hunique {y : Pattern F} (hy : x.nextUp = .ok (y, ∅)) : up = y := by
    rw [nextUp, hup, Except.ok.injEq, Prod.mk.injEq] at hy
    exact hy.1
  refine ⟨up, down, hup, hdown, hneighbourUp, hneighbourDown, fun htop => ?_, fun hsub => ?_,
    fun hzero => ?_, exists_nextUp_of_negate h hx hdown, fun hne => ?_⟩
  · exact hunique (nextUp_of_top h htop)
  · exact hunique (hsub ▸ nextUp_of_largest_negative_subnormal h hi)
  · exact hunique (nextUp_of_isZero h hi hzero)
  · rw [hv] at hne ⊢
    exact exists_nextDown_of_nextUp h hi hv (fun heq => hne (congrArg some heq)) hup

/-- The largest finite pattern and the smallest normal one of half precision. -/
theorem exists_hasNeighbours_half :
    let F : Format := { exponentWidth := 5, mantissaWidth := 10 }
    F.Regular ∧ F.implicitLeadingBit = true ∧
      ((pack F .positive 30 0x3ff).isNaN = false ∧
        ∃ up down, HasNeighbours (pack F .positive 30 0x3ff) up down) ∧
      (pack F .negative 1 0).isNaN = false ∧
        ∃ up down, HasNeighbours (pack F .negative 1 0) up down := by
  intro F
  have h : F.Regular := ⟨rfl, by decide, by decide⟩
  have hlargest : (pack F .positive 30 0x3ff).isNaN = false := by decide +kernel
  have hleast : (pack F .negative 1 0).isNaN = false := by decide +kernel
  exact ⟨h, rfl, ⟨hlargest, exists_hasNeighbours h rfl hlargest⟩, hleast,
    exists_hasNeighbours h rfl hleast⟩

end HartFloat.Pattern
