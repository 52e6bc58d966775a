import HartFloat.Proofs.Exact.Value
import HartFloat.Rounding

/-!
# Rounding real numbers to integers

The five rounding directions as functions on real numbers. The decision made from the parity of
the floor and the excess over it, on magnitudes with a sign beside them, computes these functions.
-/
namespace HartFloat.RoundingMode

open Exact

/-- The nearer of the two integers around a number; halfway between them the lower one if `down`
holds. -/
noncomputable def nearest (r : ℝ) (down : Prop) [Decidable down] : ℤ :=
  if r - ⌊r⌋ < ⌊r⌋ + 1 - r ∨ r - ⌊r⌋ = ⌊r⌋ + 1 - r ∧ down then ⌊r⌋ else ⌊r⌋ + 1

/-- The integer to which a real number is rounded. -/
noncomputable def roundReal (mode : RoundingMode) (r : ℝ) : ℤ :=
  match mode with
  | towardNegative => ⌊r⌋
  | towardPositive => ⌈r⌉
  | towardZero => if 0 ≤ r then ⌊r⌋ else ⌈r⌉
  | tiesToEven => nearest r (Even ⌊r⌋)
  | tiesToAway => nearest r (r < 0)

theorem floor_ceil_of_between {r : ℝ} {f : ℤ} (hlo : (f : ℝ) < r) (hhi : r < f + 1) :
    ⌊r⌋ = f ∧ ⌈r⌉ = f + 1 := by
  constructor
  · rw [Int.floor_eq_iff]
    constructor <;> linarith
  · rw [Int.ceil_eq_iff]
    push_cast
    constructor <;> linarith

section

variable {r : ℝ} {down : Prop} [Decidable down]

theorem nearest_intCast (n : ℤ) : nearest n down = n := by
  simp [nearest]

/-- The cases of rounding to nearest, by the side of the middle on which the number lies. -/
theorem nearest_cases (r : ℝ) (down : Prop) [Decidable down] :
    r - ⌊r⌋ < ⌊r⌋ + 1 - r ∧ nearest r down = ⌊r⌋ ∨
    r - ⌊r⌋ = ⌊r⌋ + 1 - r ∧ nearest r down = (if down then ⌊r⌋ else ⌊r⌋ + 1) ∨
    ⌊r⌋ + 1 - r < r - ⌊r⌋ ∧ nearest r down = ⌊r⌋ + 1 := by
  unfold nearest
  rcases lt_trichotomy (r - ⌊r⌋) (⌊r⌋ + 1 - r) with h | h | h
  · exact Or.inl ⟨h, if_pos (Or.inl h)⟩
  · exact Or.inr (Or.inl ⟨h, by simp [h]⟩)
  · refine Or.inr (Or.inr ⟨h, if_neg ?_⟩)
    rintro (hlt | ⟨heq, -⟩)
    · exact lt_asymm h hlt
    · exact h.ne' heq

theorem abs_nearest_sub_le (r : ℝ) (down : Prop) [Decidable down] :
    |(nearest r down : ℝ) - r| ≤ 1 / 2 := by
  have hlo := Int.floor_le r
  have hhi := Int.lt_floor_add_one r
  rw [abs_le]
  rcases nearest_cases r down with ⟨h, hn⟩ | ⟨h, hn⟩ | ⟨h, hn⟩
  · rw [hn]
    constructor <;> linarith
  · rw [hn]
    split_ifs
    · constructor <;> linarith
    · push_cast
      constructor <;> linarith
  · rw [hn]
    push_cast
    constructor <;> linarith

theorem nearest_eq_of_tie {j : ℤ} (hj : |(j : ℝ) - r| = |(nearest r down : ℝ) - r|)
    (hne : j ≠ nearest r down) :
    nearest r down = (if down then ⌊r⌋ else ⌊r⌋ + 1) ∧ j = if down then ⌊r⌋ + 1 else ⌊r⌋ := by
  have hsum : (nearest r down : ℝ) + j = 2 * r := by
    rcases abs_eq_abs.mp hj with h | h
    · exact absurd (by exact_mod_cast sub_left_injective h) hne
    · linarith
  have hlo := Int.floor_le r
  have hhi := Int.lt_floor_add_one r
  rcases nearest_cases r down with ⟨h, hn⟩ | ⟨h, hn⟩ | ⟨h, hn⟩
  · rw [hn] at hsum hne
    have h₁ : ⌊r⌋ ≤ j := by exact_mod_cast (by linarith : (⌊r⌋ : ℝ) ≤ j)
    have h₂ : j < ⌊r⌋ + 1 := by exact_mod_cast (by linarith : (j : ℝ) < ⌊r⌋ + 1)
    omega
  · refine ⟨hn, ?_⟩
    rw [hn] at hsum
    split_ifs at hsum ⊢
    · exact_mod_cast (by linarith : (j : ℝ) = ⌊r⌋ + 1)
    · push_cast at hsum
      exact_mod_cast (by linarith : (j : ℝ) = ⌊r⌋)
  · rw [hn] at hsum hne
    push_cast at hsum
    have h₁ : ⌊r⌋ < j := by exact_mod_cast (by linarith : (⌊r⌋ : ℝ) < j)
    have h₂ : j ≤ ⌊r⌋ + 1 := by exact_mod_cast (by linarith : (j : ℝ) ≤ ⌊r⌋ + 1)
    omega

theorem nearest_neg {up : Prop} [Decidable up] (hr : (⌊r⌋ : ℝ) ≠ r) (hup : up ↔ ¬down) :
    nearest (-r) up = -nearest r down := by
  have hlo : (⌊r⌋ : ℝ) < r := lt_of_le_of_ne (Int.floor_le r) hr
  have hhi := Int.lt_floor_add_one r
  obtain ⟨hfl, -⟩ := floor_ceil_of_between (r := -r) (f := -⌊r⌋ - 1) (by push_cast; linarith)
    (by push_cast; linarith)
  have hneg := nearest_cases (-r) up
  rw [hfl] at hneg
  push_cast at hneg
  rcases nearest_cases r down with ⟨h, hn⟩ | ⟨h, hn⟩ | ⟨h, hn⟩
  · rcases hneg with ⟨h', -⟩ | ⟨h', -⟩ | ⟨-, hn'⟩
    · exfalso
      linarith
    · exfalso
      linarith
    · rw [hn, hn']
      ring
  · rcases hneg with ⟨h', -⟩ | ⟨-, hn'⟩ | ⟨h', -⟩
    · exfalso
      linarith
    · rw [hn, hn']
      by_cases hd : down
      · rw [if_neg fun hu => hup.mp hu hd, if_pos hd]
        ring
      · rw [if_pos (hup.mpr hd), if_neg hd]
        ring
    · exfalso
      linarith
  · rcases hneg with ⟨-, hn'⟩ | ⟨h', -⟩ | ⟨h', -⟩
    · rw [hn, hn']
      ring
    · exfalso
      linarith
    · exfalso
      linarith

theorem two_mul_le_nearest {n : ℕ} (hr : (2 * n : ℕ) - 1 / 2 ≤ r)
    (hdown : down → ⌊r⌋ ≠ (2 * n : ℕ) - 1) : ((2 * n : ℕ) : ℤ) ≤ nearest r down := by
  have hhi := Int.lt_floor_add_one r
  have hge : ((2 * n : ℕ) : ℤ) < ⌊r⌋ + 2 := by
    exact_mod_cast (by linarith : ((2 * n : ℕ) : ℝ) < ⌊r⌋ + 2)
  rcases nearest_cases r down with ⟨h, hn⟩ | ⟨-, hn⟩ | ⟨-, hn⟩
  · have hlt : ((2 * n : ℕ) : ℤ) < ⌊r⌋ + 1 := by
      exact_mod_cast (by linarith : ((2 * n : ℕ) : ℝ) < ⌊r⌋ + 1)
    omega
  · rw [hn]
    split_ifs with hd
    · have := hdown hd
      omega
    · omega
  · omega

end

/-- Rounding a nonnegative number, by its distance from the floor. -/
theorem roundReal_of_nonneg (mode : RoundingMode) {r : ℝ} {f : ℕ} {ex : Excess}
    (h : ex.Describes (r - f)) :
    mode.roundReal r = f + (mode.roundsUp .positive (f % 2 == 1) ex).toNat := by
  have hpar : (f % 2 == 1) = !decide (Even f) := by
    rcases Nat.mod_two_eq_zero_or_one f with h | h <;> simp [h, Nat.even_iff]
  have hf : (0 : ℝ) ≤ f := Nat.cast_nonneg f
  cases ex with
  | none =>
    obtain rfl : r = f := by
      simp only [Excess.Describes] at h
      linarith
    cases mode <;> simp [roundReal, nearest, roundsUp]
  | belowHalf =>
    obtain ⟨hlo, hhi⟩ := h
    obtain ⟨hfl, hcl⟩ := floor_ceil_of_between (r := r) (f := f) (by push_cast; linarith)
      (by push_cast; linarith)
    have hnear : r - f < f + 1 - r := by linarith
    have hnonneg : 0 ≤ r := by linarith
    cases mode <;>
      simp [roundReal, nearest, roundsUp, isDirectedAway, hfl, hcl, hnear, hnonneg]
  | half =>
    simp only [Excess.Describes] at h
    obtain ⟨hfl, hcl⟩ := floor_ceil_of_between (r := r) (f := f) (by push_cast; linarith)
      (by push_cast; linarith)
    have hmiddle : r - f = f + 1 - r := by linarith
    have hnonneg : 0 ≤ r := by linarith
    cases mode with
    | tiesToEven =>
      by_cases he : Even f <;>
        simp [roundReal, nearest, roundsUp, isDirectedAway, hfl, hmiddle, hpar, he]
    | _ => simp [roundReal, nearest, roundsUp, isDirectedAway, hfl, hcl, hmiddle, hnonneg]
  | aboveHalf =>
    obtain ⟨hlo, hhi⟩ := h
    obtain ⟨hfl, hcl⟩ := floor_ceil_of_between (r := r) (f := f) (by push_cast; linarith)
      (by push_cast; linarith)
    have hfar : f + 1 - r < r - f := by linarith
    have hnonneg : 0 ≤ r := by linarith
    cases mode <;>
      simp [roundReal, nearest, roundsUp, isDirectedAway, isNearest, hfl, hcl, hnonneg,
        hfar.not_gt, hfar.ne']

def flip : RoundingMode → RoundingMode
  | towardNegative => towardPositive
  | towardPositive => towardNegative
  | mode => mode

theorem roundsUp_negative (mode : RoundingMode) (odd : Bool) (ex : Excess) :
    mode.roundsUp .negative odd ex = mode.flip.roundsUp .positive odd ex := by
  cases mode <;> cases ex <;> rfl

theorem roundReal_intCast (mode : RoundingMode) (n : ℤ) : mode.roundReal n = n := by
  cases mode <;> simp [roundReal, nearest_intCast]

theorem roundReal_neg (mode : RoundingMode) (r : ℝ) :
    mode.roundReal (-r) = -mode.flip.roundReal r := by
  by_cases hr : (⌊r⌋ : ℝ) = r
  · rw [← hr, ← Int.cast_neg, roundReal_intCast, roundReal_intCast]
  have hlo : (⌊r⌋ : ℝ) < r := lt_of_le_of_ne (Int.floor_le r) hr
  obtain ⟨hfl, -⟩ := floor_ceil_of_between (r := -r) (f := -⌊r⌋ - 1)
    (by push_cast; linarith [Int.lt_floor_add_one r]) (by push_cast; linarith)
  have hzero : r ≠ 0 := by
    rintro rfl
    simp at hr
  cases mode with
  | towardNegative => exact Int.floor_neg
  | towardPositive => exact Int.ceil_neg
  | towardZero =>
    rcases hzero.lt_or_gt with h | h
    · simp [roundReal, flip, h.le, h.not_ge, Int.floor_neg]
    · simp [roundReal, flip, h.le, h.not_ge, Int.ceil_neg]
  | tiesToEven =>
    refine nearest_neg hr ?_
    rw [hfl, Int.even_sub_one, even_neg]
  | tiesToAway =>
    refine nearest_neg hr ?_
    rw [neg_lt_zero, not_lt]
    exact ⟨le_of_lt, fun hle => lt_of_le_of_ne hle (Ne.symm hzero)⟩

/-- The decision on magnitudes rounds the signed number in the mode's direction. -/
theorem applyTo_roundToNat (mode : RoundingMode) (s : Sign) (x : Magnitude) :
    s.applyTo (mode.roundToNat s x).1 = mode.roundReal (s.factor * x.toReal) := by
  cases s with
  | positive =>
    simp [Sign.applyTo, Sign.factor, roundToNat, mode.roundReal_of_nonneg x.excess_describes]
  | negative =>
    simp [Sign.applyTo, Sign.factor, roundToNat, roundReal_neg, roundsUp_negative,
      mode.flip.roundReal_of_nonneg x.excess_describes]

theorem excess_ne_none_iff (x : Magnitude) : x.excess ≠ .none ↔ (x.floor : ℝ) < x.toReal := by
  have h := x.excess_describes
  cases hex : x.excess with
  | none =>
    simp only [hex, Excess.Describes] at h
    simp [sub_eq_zero.mp h]
  | half =>
    simp only [hex, Excess.Describes] at h
    simp only [ne_eq, reduceCtorEq, not_false_eq_true, true_iff]
    linarith
  | belowHalf | aboveHalf =>
    simp only [hex, Excess.Describes] at h
    simp only [ne_eq, reduceCtorEq, not_false_eq_true, true_iff]
    linarith

theorem roundToNat_inexact_iff (mode : RoundingMode) (s : Sign) (x : Magnitude) :
    (mode.roundToNat s x).2 = true ↔ ((mode.roundToNat s x).1 : ℝ) ≠ x.toReal := by
  have hhi := x.toReal_lt_floor_add_one
  unfold roundToNat
  by_cases hex : x.excess = .none
  · have h := x.excess_describes
    simp only [hex, Excess.Describes] at h
    simp [hex, roundsUp, (sub_eq_zero.mp h).symm]
  · have hlo := (excess_ne_none_iff x).mp hex
    simp only [bne_iff_ne, ne_eq, hex, not_false_eq_true, true_iff]
    cases mode.roundsUp s (x.floor % 2 == 1) x.excess
    · simpa using hlo.ne
    · simpa using hhi.ne'

/-- Rounding moves a number by less than one. -/
theorem abs_roundReal_sub_lt_one (mode : RoundingMode) (r : ℝ) :
    |(mode.roundReal r : ℝ) - r| < 1 := by
  have hfl := Int.floor_le r
  have hfl' := Int.lt_floor_add_one r
  have hcl := Int.le_ceil r
  have hcl' := Int.ceil_lt_add_one r
  cases mode with
  | towardNegative =>
    rw [abs_lt, roundReal]
    constructor <;> linarith
  | towardPositive =>
    rw [abs_lt, roundReal]
    constructor <;> linarith
  | towardZero =>
    rw [abs_lt, roundReal]
    split_ifs <;> constructor <;> linarith
  | tiesToEven | tiesToAway => exact (abs_nearest_sub_le r _).trans_lt one_half_lt_one

/-- A number that does not exceed an integer in magnitude is not rounded beyond it. -/
theorem abs_roundReal_le (mode : RoundingMode) {r : ℝ} {n : ℕ} (h : |r| ≤ n) :
    |mode.roundReal r| ≤ n := by
  have hlt := mode.abs_roundReal_sub_lt_one r
  have hsum := abs_add_le ((mode.roundReal r : ℝ) - r) r
  rw [sub_add_cancel] at hsum
  have hstep : |(mode.roundReal r : ℝ)| < n + 1 := by linarith
  have hint : |mode.roundReal r| < n + 1 := by exact_mod_cast hstep
  omega

theorem le_abs_roundReal (mode : RoundingMode) {r : ℝ} {n : ℕ} (h : n ≤ |r|) :
    n ≤ |mode.roundReal r| := by
  have hlt := mode.abs_roundReal_sub_lt_one r
  have hsum := abs_sub_abs_le_abs_sub r (mode.roundReal r)
  rw [abs_sub_comm] at hsum
  have hstep : (n : ℝ) < |(mode.roundReal r : ℝ)| + 1 := by linarith
  have hint : (n : ℤ) < |mode.roundReal r| + 1 := by exact_mod_cast hstep
  omega

/-- The directions that do not lead away from zero leave the magnitude below the number's. -/
theorem abs_roundReal_le_abs {mode : RoundingMode} {s : Sign}
    (h : mode.overflowsToInfinity s = false) {r : ℝ} (hr : 0 ≤ r) :
    |(mode.roundReal (s.factor * r) : ℝ)| ≤ r := by
  have hfl := Int.floor_le r
  have hnonneg : (0 : ℝ) ≤ ⌊r⌋ := by exact_mod_cast Int.floor_nonneg.mpr hr
  have habs : |(⌊r⌋ : ℝ)| ≤ r := by rwa [abs_of_nonneg hnonneg]
  cases s <;> cases mode <;>
    simp_all [overflowsToInfinity, isDirectedAway, isNearest, roundReal, Sign.factor,
      Int.ceil_neg]
  split_ifs with hzero
  · obtain rfl : r = 0 := le_antisymm hzero hr
    simp
  · simpa using habs

/-- The directions that lead away from zero leave the magnitude no less than the number's. -/
theorem le_abs_roundReal_of_away {mode : RoundingMode} {s : Sign} (h : mode.isDirectedAway s = true)
    (r : ℝ) : r ≤ |(mode.roundReal (s.factor * r) : ℝ)| := by
  have hcl := (Int.le_ceil r).trans (le_abs_self _)
  cases s <;> cases mode <;>
    simp_all [isDirectedAway, roundReal, Sign.factor, Int.floor_neg]

theorem abs_roundReal_towardZero (r : ℝ) : |towardZero.roundReal r| = ⌊|r|⌋ := by
  rcases le_or_gt 0 r with hr | hr
  · rw [roundReal, if_pos hr, abs_of_nonneg hr, abs_of_nonneg (Int.floor_nonneg.mpr hr)]
  · have hneg : 0 ≤ ⌊-r⌋ := Int.floor_nonneg.mpr (by linarith)
    rw [roundReal, if_neg hr.not_ge, abs_of_neg hr, ← abs_neg, ← Int.floor_neg, abs_of_nonneg hneg]

/-- The nearest modes leave at most half a unit. -/
theorem abs_roundReal_sub_le {mode : RoundingMode} (h : mode.isNearest = true) (r : ℝ) :
    |(mode.roundReal r : ℝ) - r| ≤ 1 / 2 := by
  cases mode with
  | towardZero | towardNegative | towardPositive => cases h
  | tiesToEven | tiesToAway => exact abs_nearest_sub_le r _

theorem roundReal_eq_of_abs_sub_lt {mode : RoundingMode} (h : mode.isNearest = true) {r : ℝ}
    {n : ℤ} (hn : |r - n| < 1 / 2) : mode.roundReal r = n := by
  have hround := mode.abs_roundReal_sub_le h r
  have hsum := abs_sub_le (mode.roundReal r : ℝ) r n
  have hlt : |(mode.roundReal r : ℝ) - n| < 1 := by linarith
  have hint : |mode.roundReal r - n| < 1 := by exact_mod_cast hlt
  rw [abs_lt] at hint
  omega

/-- No integer is nearer than the one chosen by a nearest mode. -/
theorem abs_roundReal_sub_le_abs_sub {mode : RoundingMode} (h : mode.isNearest = true) (r : ℝ)
    (j : ℤ) : |(mode.roundReal r : ℝ) - r| ≤ |(j : ℝ) - r| := by
  have hhalf := abs_roundReal_sub_le h r
  by_cases hj : j = mode.roundReal r
  · rw [hj]
  · have hone : (1 : ℝ) ≤ |(j : ℝ) - mode.roundReal r| := by
      exact_mod_cast Int.one_le_abs (sub_ne_zero.mpr hj)
    have hsum := abs_sub_le (j : ℝ) r (mode.roundReal r)
    rw [abs_sub_comm r] at hsum
    linarith

theorem two_mul_le_abs_roundReal {mode : RoundingMode} (h : mode.isNearest = true) {r : ℝ} {n : ℕ}
    (hr : (2 * n : ℕ) - 1 / 2 ≤ |r|) : ((2 * n : ℕ) : ℤ) ≤ |mode.roundReal r| := by
  have hpos {a : ℝ} (ha : (2 * n : ℕ) - 1 / 2 ≤ a) (hzero : 0 ≤ a) :
      ((2 * n : ℕ) : ℤ) ≤ mode.roundReal a := by
    cases mode with
    | towardZero | towardNegative | towardPositive => cases h
    | tiesToAway => exact two_mul_le_nearest ha fun hneg => absurd hneg hzero.not_gt
    | tiesToEven =>
      refine two_mul_le_nearest ha fun he hfl => ?_
      obtain ⟨k, hk⟩ := he
      omega
  have hflip : mode.flip = mode := by cases mode <;> simp [isNearest] at h <;> rfl
  rcases le_total 0 r with hzero | hzero
  · rw [abs_of_nonneg hzero] at hr
    exact (hpos hr hzero).trans (le_abs_self _)
  · rw [abs_of_nonpos hzero] at hr
    have hneg := hpos hr (neg_nonneg.mpr hzero)
    rw [roundReal_neg, hflip] at hneg
    exact hneg.trans (neg_le_abs _)

theorem le_abs_roundReal_of_double (mode : RoundingMode) {s : Sign} {r : ℝ} (hr : 0 ≤ r) {n : ℕ}
    (h : ((2 * n : ℕ) : ℤ) ≤ |mode.roundReal (s.factor * (2 * r))|) :
    n ≤ |mode.roundReal (s.factor * r)| := by
  have habs (a : ℝ) (ha : 0 ≤ a) : |s.factor * a| = a := by
    rw [abs_mul, Sign.abs_factor, one_mul, abs_of_nonneg ha]
  have hreal : 2 * (n : ℝ) ≤ |(mode.roundReal (s.factor * (2 * r)) : ℝ)| := by
    exact_mod_cast h
  have hsum := abs_sub_abs_le_abs_sub (mode.roundReal (s.factor * (2 * r)) : ℝ)
    (s.factor * (2 * r))
  have hsum' := abs_sub_abs_le_abs_sub (s.factor * r) (mode.roundReal (s.factor * r) : ℝ)
  rw [habs _ (by linarith)] at hsum
  rw [habs r hr, abs_sub_comm] at hsum'
  have hstep (hlt : (n : ℝ) - 1 < |(mode.roundReal (s.factor * r) : ℝ)|) :
      n ≤ |mode.roundReal (s.factor * r)| := by
    have hint : (n : ℤ) - 1 < |mode.roundReal (s.factor * r)| := by exact_mod_cast hlt
    omega
  cases hnear : mode.isNearest with
  | true =>
    have hdist := abs_roundReal_sub_le hnear (s.factor * (2 * r))
    have hdist' := abs_roundReal_sub_le hnear (s.factor * r)
    exact hstep (by linarith)
  | false =>
    cases haway : mode.isDirectedAway s with
    | true =>
      have hdist := mode.abs_roundReal_sub_lt_one (s.factor * (2 * r))
      have hge := le_abs_roundReal_of_away haway r
      exact hstep (by linarith)
    | false =>
      have hstay : mode.overflowsToInfinity s = false := by
        rw [overflowsToInfinity, haway, hnear]
        rfl
      have hle := abs_roundReal_le_abs hstay (r := 2 * r) (by linarith)
      exact mode.le_abs_roundReal (by rw [habs r hr]; linarith)

theorem even_roundReal_of_tie {r : ℝ} {j : ℤ}
    (hj : |(j : ℝ) - r| = |(tiesToEven.roundReal r : ℝ) - r|) (hne : j ≠ tiesToEven.roundReal r) :
    Even (tiesToEven.roundReal r) := by
  obtain ⟨hn, -⟩ := nearest_eq_of_tie hj hne
  rw [roundReal, hn]
  split_ifs with he
  · exact he
  · exact (Int.not_even_iff_odd.mp he).add_one

theorem abs_lt_abs_roundReal_of_tie {r : ℝ} {j : ℤ}
    (hj : |(j : ℝ) - r| = |(tiesToAway.roundReal r : ℝ) - r|) (hne : j ≠ tiesToAway.roundReal r) :
    |j| < |tiesToAway.roundReal r| := by
  obtain ⟨hn, hj⟩ := nearest_eq_of_tie hj hne
  rw [roundReal, hn, hj]
  split_ifs with hr
  · have hfloor : ⌊r⌋ < 0 := Int.floor_lt.mpr (by exact_mod_cast hr)
    rw [abs_of_neg hfloor, abs_of_nonpos (by omega)]
    omega
  · have hfloor : 0 ≤ ⌊r⌋ := Int.floor_nonneg.mpr (not_lt.mp hr)
    rw [abs_of_nonneg hfloor, abs_of_nonneg (by omega)]
    omega

end HartFloat.RoundingMode
