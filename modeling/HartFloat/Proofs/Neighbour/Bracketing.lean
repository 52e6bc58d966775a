import HartFloat.Proofs.Neighbour.Mirror
import HartFloat.Proofs.Pattern.Representation

/-!
# Directed rounding and neighbours

A number that is not a value of the format lies between two adjacent ones, those to which it is
rounded down and up. With an implied leading bit the upper one is also found as the next pattern
after the lower one. Both ways lead to the same bits, at the ends of the range and at zero too:
the sign of a zero is that of the number that was rounded, and that of the pattern before.
-/
namespace HartFloat

namespace Format

variable {F : Format} {v : ℝ} {y z : Pattern F}

theorem IsRounding.adjacent (hv : v ∉ F.finiteValues) (hy : F.IsRounding .towardNegative v y)
    (hz : F.IsRounding .towardPositive v z) :
    ∃ a b, y.extended? = some a ∧ z.extended? = some b ∧ a < v ∧ v < b ∧ F.Adjacent a b := by
  have hne {x : Pattern F} {w : EReal} (hx : x.extended? = some w) : w ≠ v := by
    rintro rfl
    obtain ⟨hfinite, hvalue⟩ := fieldValue_of_extended? hx
    exact hv ⟨x, hfinite, hvalue⟩
  obtain ⟨a, ha, hgreatest⟩ := hy.rounds
  obtain ⟨b, hb, hleast⟩ := hz.rounds
  have hav := hgreatest.1.2.lt_of_ne (hne ha)
  have hvb := hleast.1.2.lt_of_ne' (hne hb)
  refine ⟨a, b, ha, hb, hav, hvb, hgreatest.1.1, hleast.1.1, hav.trans hvb, fun w hw hlt => ?_⟩
  exact hleast.2 ⟨hw, (not_le.mp fun hwv => (hgreatest.2 ⟨hw, hwv⟩).not_gt hlt).le⟩

theorem not_mem_finiteValues_of_inexact (h : F.Regular) {c : Context} {r : Exact.Surd}
    (hr : (F.rounding c r).2.inexact = true) : r.toReal ∉ F.finiteValues := fun hmem =>
  (raises_rounding h c r).inexact.mp hr ((isRounding_rounding h c r).extended?_eq h hmem)

end Format

namespace Pattern

open ExactResult (signed_eq)

variable {F : Format} {x y : Pattern F} {d : Direction} {v : EReal} {f : Flags}

theorem infinite_of_extended? (hx : ¬x.HasFiniteFields) (hv : x.extended? = some v) :
    x.exponent = F.infinityExponent ∧ x.mantissa = 0 ∧ v = x.sign.infinity := by
  rw [extended?, if_neg hx] at hv
  split_ifs at hv with hm
  exact ⟨not_not.mp hx, hm, (Option.some.inj hv).symm⟩

section

variable (h : F.Regular)

include h

theorem extended?_of_isZero (hx : x.isZero = true) : x.extended? = some 0 := by
  obtain ⟨hnan, hinf⟩ := isFinite_iff.mp (x.classify.isFinite_of_isZero hx)
  have hfinite : x.HasFiniteFields :=
    (exponent_lt_of_finite hnan hinf h.infinityExponent_ne_zero).ne
  rw [isZero_iff_of_finite hfinite, ← fieldValue_eq_zero_iff] at hx
  rw [Format.extended?_of_finite hfinite, hx, Rat.cast_zero, EReal.coe_zero]

theorem sign_of_awayFromZero (hy : x.awayFromZero = .ok y) : y.sign = x.sign := by
  rw [awayFromZero, infinity, signed_eq h] at hy
  split_ifs at hy <;> cases hy
  · exact sign_withFields x _ _
  · exact sign_pack h.signBit _ _ _
  · exact sign_withFields x _ _

theorem sign_next (hnan : x.isNaN = false) (hnext : x.next d = .ok (y, f)) :
    y.sign = if x.isZero then d.sign else x.sign := by
  simp only [next, hnan, maxNormal, minSubnormal, signed_eq h, Bool.false_eq_true, if_false]
    at hnext
  by_cases hzero : x.isZero = true
  · obtain ⟨-, hinf⟩ := isFinite_iff.mp (x.classify.isFinite_of_isZero hzero)
    rw [hinf, if_neg Bool.false_ne_true, if_pos hzero] at hnext
    cases hnext
    rw [if_pos hzero, sign_pack h.signBit]
  · rw [if_neg hzero] at hnext ⊢
    split_ifs at hnext with hinf hs hs
    · cases hnext
      rfl
    · cases hnext
      exact sign_pack h.signBit _ _ _
    · cases haway : x.awayFromZero with
      | error e => rw [haway] at hnext; cases hnext
      | ok z =>
        rw [haway] at hnext
        cases hnext
        exact sign_of_awayFromZero h haway
    · cases hnext
      exact sign_towardZero x

variable (hi : F.implicitLeadingBit = true)

include hi

theorem eq_of_extended?_eq (hx : x.extended? = some v) (hy : y.extended? = some v)
    (hsign : x.sign = y.sign) : x = y := by
  by_cases hfinite : x.HasFiniteFields
  · obtain rfl := Option.some.inj ((Format.extended?_of_finite hfinite).symm.trans hx)
    obtain ⟨hfinite', hvalue⟩ := Format.fieldValue_of_extended? hy
    have heq : y.fieldValue = x.fieldValue := by exact_mod_cast hvalue
    refine eq_of_number?_eq h hi (if_pos hfinite) ?_
    rw [number?, if_pos hfinite', heq, hsign]
  · obtain ⟨hexp, hm, rfl⟩ := infinite_of_extended? hfinite hx
    have hfinite' : ¬y.HasFiniteFields := fun hfinite' => by
      rw [Format.extended?_of_finite hfinite', Option.some.injEq] at hy
      exact Format.infinity_ne_coe _ _ hy.symm
    obtain ⟨hexp', hm', -⟩ := infinite_of_extended? hfinite' hy
    exact eq_of_fields h.signBit hsign (hexp.trans hexp'.symm) (hm.trans hm'.symm)

/-- The next pattern up from the one to which a number is rounded down is the one to which it is
rounded up, sign included. -/
theorem nextUp_of_isRounding {r : ℝ} (hr : r ∉ F.finiteValues)
    (hx : F.IsRounding .towardNegative r x) (hy : F.IsRounding .towardPositive r y) :
    x.nextUp = .ok (y, ∅) := by
  obtain ⟨a, b, ha, hb, har, hrb, hadjacent⟩ := Format.IsRounding.adjacent hr hx hy
  have hnan : x.isNaN = false := isNaN_of_extended? ha
  obtain ⟨z, hz, hneighbour⟩ := exists_isNeighbour h hi hnan .up
  obtain ⟨-, c, -, hc, -⟩ := id hneighbour
  have htop : a ≠ Direction.up.sign.infinity := (har.trans (EReal.coe_lt_top r)).ne
  have hnext := isNext_of_isNeighbour ha hc htop hneighbour
  obtain rfl := hnext.unique hadjacent.isNext_up
  have hsign : z.sign = y.sign := by
    have hzsign := sign_next h hnan hz
    rcases lt_trichotomy r 0 with hneg | rfl | hpos
    · -- A number rounded down to a zero is not negative.
      have hzero : x.isZero = false := Bool.eq_false_iff.mpr fun hzero => by
        rw [extended?_of_isZero h hzero, Option.some.injEq] at ha
        rw [← ha] at har
        exact absurd hneg (not_lt.mpr (by exact_mod_cast har.le))
      rw [hzsign, hzero, if_neg Bool.false_ne_true, hx.sign_of_neg hneg, hy.sign_of_neg hneg]
    · exact absurd ⟨positiveZero F, Format.hasFiniteFields_positiveZero h,
        by rw [Format.fieldValue_positiveZero, Rat.cast_zero]⟩ hr
    · rw [hzsign, hx.sign_of_pos hpos, hy.sign_of_pos hpos]
      split_ifs <;> rfl
  rw [nextUp, hz, eq_of_extended?_eq h hi hc hb hsign]

end

/-- The second pattern is the next one up from the first, and the number lies between them. -/
def Brackets (r : ℝ) (x y : Pattern F) : Prop :=
  x.nextUp = .ok (y, ∅) ∧
    ∃ a b, x.extended? = some a ∧ y.extended? = some b ∧ a < r ∧ r < b

theorem brackets_of_isRounding (h : F.Regular) (hi : F.implicitLeadingBit = true) {r : ℝ}
    (hr : r ∉ F.finiteValues) (hx : F.IsRounding .towardNegative r x)
    (hy : F.IsRounding .towardPositive r y) : Brackets r x y := by
  obtain ⟨a, b, ha, hb, har, hrb, -⟩ := Format.IsRounding.adjacent hr hx hy
  exact ⟨nextUp_of_isRounding h hi hr hx hy, a, b, ha, hb, har, hrb⟩

end Pattern

namespace Environment

/-- In a regular format with an implied leading bit whose exponents fit, and in no other, an exact
result that is not a value of the format is rounded down and up to patterns on either side of it,
infinities included, and the upper one is the next pattern after the lower one. -/
theorem run_round_brackets_iff {F : Format} (h : F.Regular) (hi : F.implicitLeadingBit = true)
    (env env' : Environment) (v : Exact.Surd) (hv : v.toReal ∉ F.finiteValues) :
    (∃ x y f g, env.run (some .towardNegative) (fun c => F.round c v) = .ok (x, env.raise f) ∧
      env'.run (some .towardPositive) (fun c => F.round c v) = .ok (y, env'.raise g) ∧
      Pattern.Brackets v.toReal x y) ↔ F.exponentWidth ≤ 63 := by
  have hzero : v.toReal ≠ 0 := fun hzero => hv ⟨Pattern.positiveZero F,
    Format.hasFiniteFields_positiveZero h, by
      rw [hzero, Format.fieldValue_positiveZero, Rat.cast_zero]⟩
  have hiff (env : Environment) (mode : RoundingMode) :=
    (run_round_isRounding_iff h env (some mode) v).trans (or_iff_left hzero)
  constructor
  · rintro ⟨x, y, f, g, hx, -⟩
    obtain ⟨f', hround, -⟩ := run_eq_ok_iff.mp hx
    refine (Format.round_eq_ok_iff.mp hround).2.resolve_right fun hlooks => ?_
    exact hzero ((Format.looksAtExponent_eq_false_iff h.signBit).mp hlooks)
  · intro hw
    obtain ⟨x, f, hx, hdown⟩ := (hiff env .towardNegative).mpr hw
    obtain ⟨y, g, hy, hup⟩ := (hiff env' .towardPositive).mpr hw
    exact ⟨x, y, f, g, hx, hy, Pattern.brackets_of_isRounding h hi hv hdown hup⟩

/-- In half precision, a number beyond the largest value lies between that value and infinity, and
one above the greatest negative subnormal number lies between that number and the negative zero. -/
theorem run_round_brackets_iff_half :
    ∃ F : Format, F = { exponentWidth := 5, mantissaWidth := 10 } ∧ F.Regular ∧
      F.implicitLeadingBit = true ∧
      (Exact.Surd.ofRat 70000).toReal ∉ F.finiteValues ∧
      (Pattern.pack F .positive 30 0x3ff).nextUp = .ok (Pattern.pack F .positive 31 0, ∅) ∧
      (Exact.Surd.ofRat (-1 / 2 ^ 30)).toReal ∉ F.finiteValues ∧
      (Pattern.pack F .negative 0 1).nextUp = .ok (Pattern.pack F .negative 0 0, ∅) := by
  let F : Format := { exponentWidth := 5, mantissaWidth := 10 }
  have h : F.Regular := ⟨rfl, by decide, by decide⟩
  let up : Context := { mode := .towardPositive }
  let env : Environment := default
  have hlarge : (Exact.Surd.ofRat 70000).toReal ∉ F.finiteValues :=
    Format.not_mem_finiteValues_of_inexact (c := up) h (by decide +kernel)
  have hsmall : (Exact.Surd.ofRat (-1 / 2 ^ 30)).toReal ∉ F.finiteValues :=
    Format.not_mem_finiteValues_of_inexact (c := up) h (by decide +kernel)
  have hnext {v : Exact.Surd} {x y : Pattern F} (hv : v.toReal ∉ F.finiteValues)
      (hx : (env.run (some .towardNegative) fun c => F.round c v).map Prod.fst = .ok x)
      (hy : (env.run (some .towardPositive) fun c => F.round c v).map Prod.fst = .ok y) :
      x.nextUp = .ok (y, ∅) := by
    obtain ⟨_, _, _, _, hdown, hup, hbrackets⟩ :=
      (run_round_brackets_iff h rfl env env v hv).mpr (by decide)
    rw [hdown] at hx
    rw [hup] at hy
    cases hx
    cases hy
    exact hbrackets.1
  exact ⟨F, rfl, h, rfl, hlarge, hnext hlarge (by decide +kernel) (by decide +kernel), hsmall,
    hnext hsmall (by decide +kernel) (by decide +kernel)⟩

/-- With 64 bits of exponent, one third is not rounded. -/
theorem rounding_one_third_may_fail :
    ¬∀ F : Format, F.Regular → F.implicitLeadingBit = true → ∀ (env env' : Environment) (q : ℚ),
      (q : ℝ) ∉ F.finiteValues → ∃ x y f g,
        env.run (some .towardNegative) (fun c => F.roundRat c q) = .ok (x, env.raise f) ∧
        env'.run (some .towardPositive) (fun c => F.roundRat c q) = .ok (y, env'.raise g) ∧
        Pattern.Brackets (q : ℝ) x y := by
  intro hall
  have hthird : ((1 / 3 : ℚ) : ℝ) ∉ Format.wide.finiteValues := by
    rw [← Exact.Surd.toReal_ofRat]
    exact Format.not_mem_finiteValues_of_inexact (c := {}) Format.regular_wide (by decide +kernel)
  have hround : (default : Environment).run (some .towardNegative)
      (fun c => Format.wide.roundRat c (1 / 3)) = .error .exponentTooWide := by
    decide +kernel
  obtain ⟨x, y, f, g, hx, -⟩ :=
    hall .wide Format.regular_wide rfl default default (1 / 3) hthird
  rw [hround] at hx
  cases hx

end Environment
end HartFloat
