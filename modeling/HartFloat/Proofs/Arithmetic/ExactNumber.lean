import HartFloat.Proofs.Arithmetic.Exceptions

/-!
# Results that are numbers of the format

An exact result may itself be a number that the format has: an infinity, a signed zero, or one of
the finite values. Such a result is delivered as it is, in every rounding direction and with the
sign of its zeros, and nothing is raised unless exact underflow is to be signaled.
-/
namespace HartFloat

open Pattern

/-- A finite number has the sign of its value. -/
def Number.IsSigned : Number → Prop
  | finite s q => 0 ≤ s.factor * q
  | infinite _ => True

def Number.exact : Number → ExactResult
  | finite s q => if q = 0 then .zero s else .value q
  | infinite s => .infinite s

variable {F : Format} {c : Context} {x y : Pattern F} {a : Number} {f : Flags}

theorem Pattern.isSigned_of_number? (hx : x.number? = some a) : a.IsSigned := by
  rcases number?_cases hx with rfl | ⟨q, hq, rfl⟩
  · trivial
  · show (0 : ℚ) ≤ x.sign.factor * (x.sign.factor * q)
    cases x.sign <;> simpa [Sign.factor] using hq

theorem Number.exists_isSigned (s : Sign) (q : ℚ) :
    ∃ t, (finite t q).IsSigned ∧ (q = 0 → t = s) := by
  rcases lt_trichotomy q 0 with hneg | rfl | hpos
  · exact ⟨.negative, by simp [IsSigned, Sign.factor, hneg.le], fun hq => absurd hq hneg.ne⟩
  · exact ⟨s, by simp [IsSigned], fun _ => rfl⟩
  · exact ⟨.positive, by simp [IsSigned, Sign.factor, hpos.le], fun hq => absurd hq hpos.ne'⟩

theorem Number.IsSigned.sign_unique {s t : Sign} {q : ℚ} (hs : (Number.finite s q).IsSigned)
    (ht : (Number.finite t q).IsSigned) (hq : q ≠ 0) : s = t := by
  rw [Number.IsSigned] at hs ht
  cases s <;> cases t
  · rfl
  · have hzero : q = 0 :=
      le_antisymm (by simpa [Sign.factor] using ht) (by simpa [Sign.factor] using hs)
    exact absurd hzero hq
  · have hzero : q = 0 :=
      le_antisymm (by simpa [Sign.factor] using hs) (by simpa [Sign.factor] using ht)
    exact absurd hzero hq
  · rfl

theorem Format.IsRounding.sign_eq {mode : RoundingMode} {s : Sign} {q : ℚ}
    (hround : F.IsRounding mode q y) (hs : (Number.finite s q).IsSigned) (hq : q ≠ 0) :
    y.sign = s := by
  rw [Number.IsSigned] at hs
  rcases hq.lt_or_gt with hneg | hpos
  · rw [hround.sign_of_neg (by exact_mod_cast hneg)]
    cases s with
    | positive => exact absurd hs (by simpa [Sign.factor] using hneg)
    | negative => rfl
  · rw [hround.sign_of_pos (by exact_mod_cast hpos)]
    cases s with
    | positive => rfl
    | negative => exact absurd hs (by simpa [Sign.factor] using hpos)

theorem Pattern.number?_pack_infinity (h : F.Regular) (s : Sign) :
    (pack F s F.infinityExponent 0).number? = some (.infinite s) := by
  have hexp : ¬(pack F s F.infinityExponent 0).HasFiniteFields :=
    not_not.mpr (exponent_pack_infinity s 0)
  rw [number?, if_neg hexp, mantissa_pack, Nat.zero_mod, if_pos rfl, sign_pack h.signBit]

theorem Pattern.number?_pack_zero (h : F.Regular) (s : Sign) :
    (pack F s 0 0).number? = some (.finite s 0) := by
  have hfinite : (pack F s 0 0).HasFiniteFields :=
    hasFiniteFields_of_exponent_eq_zero h (by rw [exponent_pack, Nat.zero_mod])
  have hvalue : (pack F s 0 0).fieldValue = 0 := by
    simp [fieldValue, fieldSignificand, exponent_pack, mantissa_pack]
  rw [number?, if_pos hfinite, hvalue, sign_pack h.signBit]

theorem Format.Raises.extended?_eq {r : ℝ} (hf : F.Raises c r y f) (hexact : f.inexact = false) :
    y.extended? = some (r : EReal) := by
  by_contra hne
  rw [hf.inexact.mpr hne] at hexact
  cases hexact

theorem Format.Raises.eq_empty (h : F.Regular) (hc : c.exceptions = .ignoreExactUnderflow) {r : ℝ}
    (hf : F.Raises c r y f) (hexact : f.inexact = false) : f = ∅ := by
  have hy := hf.extended?_eq hexact
  have hoverflow : f.overflow = false := Bool.eq_false_iff.mpr fun ho =>
    (hf.overflow.mp ho).extended?_ne h y hy
  have hunderflow : f.underflow = false := Bool.eq_false_iff.mpr fun hu => by
    rcases (hf.underflow.mp hu).2.2.1 with hne | hsignal
    · exact hne hy
    · rw [hc] at hsignal
      cases hsignal
  rw [hf.eq_when_inexact hoverflow hunderflow, hexact]
  rfl

namespace ExactResult.Delivers

variable (hd : a.exact.Delivers F c y f)

include hd

theorem number?_eq (h : F.Regular) (ha : a.IsSigned) (hexact : f.inexact = false) :
    y.number? = some a := by
  cases a with
  | infinite s =>
    obtain ⟨rfl, -⟩ := hd
    exact number?_pack_infinity h s
  | finite s q =>
    rcases eq_or_ne q 0 with rfl | hq
    · rw [Number.exact, if_pos rfl] at hd
      obtain ⟨rfl, -⟩ := hd
      exact number?_pack_zero h s
    · rw [Number.exact, if_neg hq] at hd
      obtain ⟨hround, hraises⟩ := hd
      obtain ⟨hfinite, hvalue⟩ := Format.fieldValue_of_extended? (hraises.extended?_eq hexact)
      have hrat : y.fieldValue = q := by exact_mod_cast hvalue
      rw [number?, if_pos hfinite, hround.sign_eq ha hq, hrat]

theorem flags_eq_empty (h : F.Regular) (hc : c.exceptions = .ignoreExactUnderflow)
    (hexact : f.inexact = false) : f = ∅ := by
  cases a with
  | infinite s => exact hd.2
  | finite s q =>
    rw [Number.exact] at hd
    split_ifs at hd
    · exact hd.2
    · exact hd.2.eq_empty h hc hexact

theorem inexact_eq_false (h : F.Regular) (ha : a.IsIn F) : f.inexact = false := by
  cases a with
  | infinite s =>
    obtain ⟨-, rfl⟩ := hd
    rfl
  | finite s q =>
    rw [Number.exact] at hd
    split_ifs at hd
    · obtain ⟨-, rfl⟩ := hd
      rfl
    · refine Bool.eq_false_iff.mpr fun hinexact => ?_
      exact hd.2.inexact.mp hinexact (hd.1.extended?_eq h ha)

end ExactResult.Delivers

/-- The outcome is a pattern of the number, and raises nothing where exact underflow is ignored. -/
def Number.IsOutcome {F : Format} (c : Context) (a : Number) (o : Outcome (Pattern F)) : Prop :=
  ∃ y f, o = .ok (y, f) ∧ y.number? = some a ∧ (c.exceptions = .ignoreExactUnderflow → f = ∅)

theorem Number.isOutcome_exact (h : F.Regular) (hw : F.exponentWidth ≤ 63) (ha : a.IsSigned)
    (hin : a.IsIn F) (c : Context) : a.IsOutcome c (a.exact.outcome F c) := by
  obtain ⟨y, f, ho, hd⟩ := a.exact.isOutcome_outcome h hw c
  have hexact := hd.inexact_eq_false h hin
  exact ⟨y, f, ho, hd.number?_eq h ha hexact, fun hc => hd.flags_eq_empty h hc hexact⟩

theorem Environment.exists_run_of_isOutcome {F : Format} {a : Number}
    {op : Context → Outcome (Pattern F)} (hop : ∀ c, a.IsOutcome c (op c)) (env : Environment)
    (mode? : Option RoundingMode) :
    ∃ y f, env.run mode? op = .ok (y, env.raise f) ∧ y.number? = some a ∧
      (env.exceptions = .ignoreExactUnderflow → f = ∅) := by
  obtain ⟨y, f, ho, hy, hf⟩ := hop (env.toContext.override mode?)
  refine ⟨y, f, ?_, hy, hf⟩
  rw [run, ho]
  rfl

end HartFloat
