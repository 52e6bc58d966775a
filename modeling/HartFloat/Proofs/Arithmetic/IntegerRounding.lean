import HartFloat.Proofs.Arithmetic.Remainder

/-!
# What a rounding direction asks of an integer

The downward and the upward direction ask for the greatest integer that is not above a number and
the least one that is not below it, and the direction toward zero for the one of these two that lies
on the side of zero. The nearest directions ask for an integer to which no other is nearer; of two
that are as near, for the even one or for the one farther from zero. There is exactly one such
integer for every number and direction, and it is the number itself only where that is an integer.
-/
namespace HartFloat

/-- No integer is nearer to the number, and one that is as near is smaller in magnitude. -/
structure IsNearestAway (q : ℚ) (n : ℤ) : Prop where
  abs_sub_le : ∀ m : ℤ, |q - n| ≤ |q - m|
  abs_lt_of_tie : ∀ m : ℤ, m ≠ n → |q - m| = |q - n| → |m| < |n|

/-- The integer is the one that the direction asks for. -/
def RoundingMode.RoundsTo (mode : RoundingMode) (q : ℚ) (n : ℤ) : Prop :=
  match mode with
  | .towardNegative => IsGreatest {m : ℤ | (m : ℚ) ≤ q} n
  | .towardPositive => IsLeast {m : ℤ | q ≤ m} n
  | .towardZero =>
    (0 ≤ q → IsGreatest {m : ℤ | (m : ℚ) ≤ q} n) ∧ (q ≤ 0 → IsLeast {m : ℤ | q ≤ m} n)
  | .tiesToEven => IsNearestEven q n
  | .tiesToAway => IsNearestAway q n

variable {q : ℚ} {m n : ℤ}

theorem IsNearestEven.unique (hm : IsNearestEven q m) (hn : IsNearestEven q n) : m = n := by
  by_contra hne
  have htie : |q - m| = |q - n| := le_antisymm (hm.abs_sub_le n) (hn.abs_sub_le m)
  obtain ⟨hmlo, hmhi⟩ := abs_le.mp hm.abs_sub_le_half
  obtain ⟨hnlo, hnhi⟩ := abs_le.mp hn.abs_sub_le_half
  have hle : m ≤ n + 1 := by exact_mod_cast (by linarith : (m : ℚ) ≤ n + 1)
  have hge : n ≤ m + 1 := by exact_mod_cast (by linarith : (n : ℚ) ≤ m + 1)
  obtain ⟨i, hi⟩ := hm.even_of_tie n (Ne.symm hne) htie.symm
  obtain ⟨j, hj⟩ := hn.even_of_tie m hne htie
  omega

theorem IsNearestAway.unique (hm : IsNearestAway q m) (hn : IsNearestAway q n) : m = n := by
  by_contra hne
  have htie : |q - m| = |q - n| := le_antisymm (hm.abs_sub_le n) (hn.abs_sub_le m)
  exact lt_asymm (hm.abs_lt_of_tie n (Ne.symm hne) htie.symm) (hn.abs_lt_of_tie m hne htie)

namespace RoundingMode

theorem RoundsTo.unique {mode : RoundingMode} (hm : mode.RoundsTo q m) (hn : mode.RoundsTo q n) :
    m = n := by
  cases mode with
  | tiesToEven => exact IsNearestEven.unique hm hn
  | tiesToAway => exact IsNearestAway.unique hm hn
  | towardNegative => exact IsGreatest.unique hm hn
  | towardPositive => exact IsLeast.unique hm hn
  | towardZero =>
    rcases le_total 0 q with hq | hq
    · exact (hm.1 hq).unique (hn.1 hq)
    · exact (hm.2 hq).unique (hn.2 hq)

theorem isGreatest_floor (q : ℚ) : IsGreatest {m : ℤ | (m : ℚ) ≤ q} ⌊q⌋ :=
  ⟨Int.floor_le q, fun _ hm => Int.le_floor.mpr hm⟩

theorem isLeast_ceil (q : ℚ) : IsLeast {m : ℤ | q ≤ m} ⌈q⌉ :=
  ⟨Int.le_ceil q, fun _ hm => Int.ceil_le.mpr hm⟩

theorem isNearestAway_roundReal (q : ℚ) : IsNearestAway q (tiesToAway.roundReal q) where
  abs_sub_le m := by
    have hle := abs_roundReal_sub_le_abs_sub (rfl : tiesToAway.isNearest = true) q m
    rw [abs_sub_comm, abs_sub_comm (m : ℝ)] at hle
    exact_mod_cast hle
  abs_lt_of_tie m hne htie := by
    refine abs_lt_abs_roundReal_of_tie (r := q) ?_ hne
    rw [abs_sub_comm, abs_sub_comm _ (q : ℝ)]
    exact_mod_cast htie

theorem roundsTo_roundReal (mode : RoundingMode) (q : ℚ) : mode.RoundsTo q (mode.roundReal q) := by
  cases mode with
  | tiesToAway => exact isNearestAway_roundReal q
  | tiesToEven =>
    rw [← Pattern.nearestEven_eq_roundReal]
    exact Pattern.isNearestEven_nearestEven q
  | towardNegative =>
    rw [roundReal, Rat.floor_cast]
    exact isGreatest_floor q
  | towardPositive =>
    rw [roundReal, Rat.ceil_cast]
    exact isLeast_ceil q
  | towardZero =>
    rw [roundReal, Rat.floor_cast, Rat.ceil_cast]
    split_ifs with hnonneg
    · refine ⟨fun _ => isGreatest_floor q, fun hnonpos => ?_⟩
      obtain rfl : q = 0 := le_antisymm hnonpos (by exact_mod_cast hnonneg)
      simpa using isLeast_ceil 0
    · exact ⟨fun hq => absurd (by exact_mod_cast hq) hnonneg, fun _ => isLeast_ceil q⟩

theorem roundsTo_iff {mode : RoundingMode} : mode.RoundsTo q n ↔ n = mode.roundReal q := by
  constructor
  · intro hn
    exact hn.unique (mode.roundsTo_roundReal q)
  · rintro rfl
    exact mode.roundsTo_roundReal q

theorem roundReal_eq_self_iff (mode : RoundingMode) (q : ℚ) :
    (mode.roundReal q : ℚ) = q ↔ q.isInt = true := by
  rw [Rat.isInt, beq_iff_eq, Rat.den_eq_one_iff]
  constructor
  · intro hq
    rw [← hq, Rat.num_intCast]
  · intro hq
    have hround : mode.roundReal q = q.num := by
      rw [← hq, Rat.cast_intCast, roundReal_intCast, Rat.num_intCast]
    rw [hround, hq]

theorem decide_roundReal_ne_eq (mode : RoundingMode) (q : ℚ) :
    decide ((mode.roundReal q : ℚ) ≠ q) = !q.isInt := by
  rw [decide_not, Bool.not_inj_iff, Bool.eq_iff_iff, decide_eq_true_iff, roundReal_eq_self_iff]

theorem isSigned_roundReal (mode : RoundingMode) {s : Sign} (hs : (Number.finite s q).IsSigned) :
    (Number.finite s (mode.roundReal q)).IsSigned := by
  rw [Number.IsSigned] at hs ⊢
  have hlt := abs_lt.mp (mode.abs_roundReal_sub_lt_one q)
  cases s with
  | positive =>
    have hq : (0 : ℝ) ≤ q := by simpa [Sign.factor] using hs
    have hn : (-1 : ℤ) < mode.roundReal q := by
      have hreal : (-1 : ℝ) < mode.roundReal q := by linarith
      exact_mod_cast hreal
    have hnonneg : (0 : ℤ) ≤ mode.roundReal q := by omega
    simpa [Sign.factor] using hnonneg
  | negative =>
    have hq : (q : ℝ) ≤ 0 := by simpa [Sign.factor] using hs
    have hn : mode.roundReal q < 1 := by
      have hreal : (mode.roundReal q : ℝ) < 1 := by linarith
      exact_mod_cast hreal
    have hnonpos : mode.roundReal q ≤ 0 := by omega
    simpa [Sign.factor] using hnonpos

end RoundingMode
end HartFloat
