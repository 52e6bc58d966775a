import HartFloat.Proofs.Roots.Error

/-!
# Where the guesses lie

The guesses for the root of a normal number stay between one and that number, and so do the
quotients by them. Every step then proceeds without overflow and underflow, and its result falls
short of the root by rounding errors only. A subnormal number is lost in the sums: the first step
gives one half, and each further step halves the guess, while the quotients stay exact.
-/
namespace HartFloat.Backend.Soft

open Format (binary32 regular_binary32)

variable {a g r : ℝ} {x : Word}

/-- The guess is a value between one and the number. -/
structure InRange (a g : ℝ) : Prop where
  mem : g ∈ binary32.finiteValues
  lower : min 1 a ≤ g
  upper : g ≤ max 1 a

theorem min_one_mem (ha : a ∈ binary32.finiteValues) : min 1 a ∈ binary32.finiteValues := by
  rcases min_choice 1 a with h | h <;> rw [h]
  · exact one_mem
  · exact ha

theorem max_one_mem (ha : a ∈ binary32.finiteValues) : max 1 a ∈ binary32.finiteValues := by
  rcases max_choice 1 a with h | h <;> rw [h]
  · exact one_mem
  · exact ha

theorem max_one_le_largest (ha : a ∈ binary32.finiteValues) : max 1 a ≤ binary32.largest :=
  (le_abs_self _).trans (Format.abs_le_largest regular_binary32 (max_one_mem ha))

section

variable (hnormal : 2 ^ binary32.minExponent ≤ a)

include hnormal

theorem two_zpow_le_min_one : 2 ^ binary32.minExponent ≤ min 1 a := by
  refine le_min ?_ hnormal
  rw [minExponent_binary32]
  norm_num

theorem min_one_pos : 0 < min 1 a :=
  lt_of_lt_of_le (by positivity) (two_zpow_le_min_one hnormal)

namespace InRange

variable (h : InRange a g)

include h

theorem pos : 0 < g := (min_one_pos hnormal).trans_le h.lower

/-- The product of the bounds is the number, so that the quotient lies between them too. -/
theorem quotient_mem_Icc : a / g ∈ Set.Icc (min 1 a) (max 1 a) := by
  have hg := h.pos hnormal
  have hmin := min_one_pos hnormal
  have hproduct : min 1 a * max 1 a = a := by rw [min_mul_max, one_mul]
  constructor
  · rw [le_div_iff₀ hg]
    calc min 1 a * g ≤ min 1 a * max 1 a := by gcongr; exact h.upper
      _ = a := hproduct
  · rw [div_le_iff₀ hg]
    calc a = max 1 a * min 1 a := by rw [mul_comm, hproduct]
      _ ≤ max 1 a * g := by gcongr; exact h.lower

theorem two_zpow_le_quotient : 2 ^ binary32.minExponent ≤ a / g :=
  (two_zpow_le_min_one hnormal).trans (h.quotient_mem_Icc hnormal).1

variable (ha : a ∈ binary32.finiteValues)

include ha

theorem rounded_quotient_mem_Icc :
    binary32.toNearest (a / g) ∈ Set.Icc (min 1 a) (max 1 a) :=
  ⟨Format.le_toNearest regular_binary32 (min_one_mem ha) (h.quotient_mem_Icc hnormal).1,
    Format.toNearest_le regular_binary32 (max_one_mem ha) (h.quotient_mem_Icc hnormal).2⟩

theorem le_sum : 2 * min 1 a ≤ g + binary32.toNearest (a / g) := by
  linarith [h.lower, (h.rounded_quotient_mem_Icc hnormal ha).1]

theorem two_zpow_le_sum : 2 ^ binary32.minExponent ≤ g + binary32.toNearest (a / g) := by
  linarith [two_zpow_le_min_one hnormal, min_one_pos hnormal, h.le_sum hnormal ha]

theorem sum_le : g + binary32.toNearest (a / g) ≤ max 1 a + 2 := by
  have hg := h.pos hnormal
  rcases le_or_gt g 2 with hsmall | hlarge
  · linarith [(h.rounded_quotient_mem_Icc hnormal ha).2]
  · have hmax : max 1 a = a := by
      rcases max_choice 1 a with hone | ha
      · linarith [h.upper]
      · exact ha
    have htwo : 2 < a := hlarge.trans_le (hmax ▸ h.upper)
    rcases le_or_gt g (a / 2) with hle | hgt
    · have hhalf : a / 2 ∈ binary32.finiteValues := by
        refine Format.half_mem_finiteValues regular_binary32 ha ?_
        rw [abs_of_pos (by linarith), minExponent_binary32]
        exact le_trans (by norm_num) htwo.le
      have hquotient : binary32.toNearest (a / g) ≤ a / 2 := by
        refine Format.toNearest_le regular_binary32 hhalf ?_
        gcongr
      linarith
    · have hquotient : binary32.toNearest (a / g) ≤ 2 := by
        refine Format.toNearest_le regular_binary32 two_mem ?_
        rw [div_le_iff₀ hg]
        linarith
      linarith [h.upper]

theorem sum_lt_threshold : g + binary32.toNearest (a / g) < binary32.overflowThreshold := by
  linarith [h.sum_le hnormal ha, max_one_le_largest ha, largest_add_two_lt]

theorem rounded_sum_mem :
    binary32.toNearest (g + binary32.toNearest (a / g)) ∈ binary32.finiteValues := by
  refine Format.toNearest_mem regular_binary32 ?_
  rw [abs_of_pos]
  · exact h.sum_lt_threshold hnormal ha
  · linarith [min_one_pos hnormal, h.le_sum hnormal ha]

theorem rounded_sum_mem_Icc :
    binary32.toNearest (g + binary32.toNearest (a / g)) ∈
      Set.Icc (2 * min 1 a) (2 * max 1 a) := by
  constructor
  · refine Format.le_toNearest regular_binary32 ?_ (h.le_sum hnormal ha)
    refine Format.two_mul_mem_finiteValues regular_binary32 (min_one_mem ha) ?_
    have hone : min 1 a ≤ 1 := min_le_left 1 a
    rw [abs_of_pos (by linarith [min_one_pos hnormal]), largest_binary32]
    norm_num
    linarith
  · rcases le_or_gt (2 * max 1 a) binary32.largest with hle | hgt
    · refine Format.toNearest_le regular_binary32 ?_ ?_
      · refine Format.two_mul_mem_finiteValues regular_binary32 (max_one_mem ha) ?_
        rwa [abs_of_nonneg (by linarith [le_max_left 1 a])]
      · linarith [h.upper, (h.rounded_quotient_mem_Icc hnormal ha).2]
    · have hbound := Format.abs_le_largest regular_binary32 (h.rounded_sum_mem hnormal ha)
      linarith [le_abs_self (binary32.toNearest (g + binary32.toNearest (a / g)))]

/-- The next guess is in the same range. -/
theorem next : InRange a (refined a g) where
  mem := by
    rw [refined_eq]
    refine Format.half_mem_finiteValues regular_binary32 (h.rounded_sum_mem hnormal ha) ?_
    refine le_trans ?_ (le_abs_self _)
    rw [zpow_add_one₀ two_ne_zero]
    linarith [two_zpow_le_min_one hnormal, (h.rounded_sum_mem_Icc hnormal ha).1]
  lower := by
    have hlower := (h.rounded_sum_mem_Icc hnormal ha).1
    rw [refined_eq]
    linarith
  upper := by
    have hupper := (h.rounded_sum_mem_Icc hnormal ha).2
    rw [refined_eq]
    linarith

theorem proceeds : Proceeds a g where
  quotient :=
    { pos := (min_one_pos hnormal).trans_le (h.quotient_mem_Icc hnormal).1
      lt_threshold := by
        linarith [(h.quotient_mem_Icc hnormal).2, max_one_le_largest ha, largest_add_two_lt]
      normal_or_mem := Or.inl (h.two_zpow_le_quotient hnormal) }
  sum :=
    { pos := by linarith [min_one_pos hnormal, h.le_sum hnormal ha]
      lt_threshold := h.sum_lt_threshold hnormal ha
      normal_or_mem := Or.inl (h.two_zpow_le_sum hnormal ha) }
  mem := (h.next hnormal ha).mem

/-- The result of a step falls short of the root by the errors of two roundings at most. -/
theorem le_sq_refined : (1 - roundoff) ^ 4 * a ≤ refined a g ^ 2 := by
  have hg := h.pos hnormal
  have hu := sub_pos.mpr roundoff_lt_one
  have hmean := (refined_mem_Icc hg (h.two_zpow_le_quotient hnormal)
    (h.two_zpow_le_sum hnormal ha)).1
  have hquotient : 0 < a / g := (min_one_pos hnormal).trans_le (h.quotient_mem_Icc hnormal).1
  calc (1 - roundoff) ^ 4 * a ≤ (1 - roundoff) ^ 4 * ((g + a / g) / 2) ^ 2 := by
        gcongr
        exact le_sq_mean a hg
    _ = ((1 - roundoff) ^ 2 * ((g + a / g) / 2)) ^ 2 := by ring
    _ ≤ refined a g ^ 2 := by gcongr

end InRange

/-- The guess with the given number of steps left; the first one is not the result of a step. -/
def ReachedInRange (a : ℝ) (n : ℕ) (g : ℝ) : Prop :=
  InRange a g ∧ (n < Primitives.rootSteps → (1 - roundoff) ^ 4 * a ≤ g ^ 2)

theorem yields_sqrtApprox_of_normal (hx : Holds x a) : Yields (primitives.sqrtApprox x)
    fun w => ∃ r, Holds w r ∧ ReachedInRange a 0 r := by
  have ha := hx.mem
  refine yields_sqrtApprox (ReachedInRange a) hx (fun n g hg => ?_) ?_
  · exact ⟨hg.1.proceeds hnormal ha, hg.1.next hnormal ha, fun _ => hg.1.le_sq_refined hnormal ha⟩
  · exact ⟨⟨ha, min_le_right 1 a, le_max_right 1 a⟩, fun hlt => absurd hlt (lt_irrefl _)⟩

end

theorem refined_of_sum_eq {k : ℕ} (hk : k < 10) (hquotient : InReach (a / g)) (hr : 0 ≤ r)
    (hsmall : r < 2 ^ (-117 : ℤ)) (hsum : g + binary32.toNearest (a / g) = 2 ^ (-k : ℤ) + r) :
    Proceeds a g ∧ refined a g = 2 ^ (-(k + 1 : ℕ) : ℤ) := by
  have hspacing : r < binary32.spacing (-k) / 2 := by
    calc r < 2 ^ (-117 : ℤ) := hsmall
      _ ≤ 2 ^ (-k - 23 : ℤ) / 2 := by
        rw [div_eq_mul_inv, ← zpow_sub_one₀ two_ne_zero]
        exact zpow_le_zpow_right₀ one_le_two (by omega)
      _ = binary32.spacing (-k) / 2 := by rw [Format.spacing, fractionWidth_binary32]; rfl
  have hlost : binary32.toNearest (2 ^ (-k : ℤ) + r) = 2 ^ (-k : ℤ) :=
    Format.toNearest_two_zpow_add (by rw [minExponent_binary32]; omega) hr hspacing
  have hrefined : refined a g = 2 ^ (-(k + 1 : ℕ) : ℤ) := by
    rw [refined_eq, hsum, hlost, Nat.cast_add_one, neg_add, ← sub_eq_add_neg,
      zpow_sub_one₀ two_ne_zero, div_eq_mul_inv]
  have hpow : (2 : ℝ) ^ (-k : ℤ) ≤ 1 := zpow_le_one_of_nonpos₀ one_le_two (by omega)
  have hone : (2 : ℝ) ^ (-117 : ℤ) ≤ 1 := zpow_le_one_of_nonpos₀ one_le_two (by omega)
  refine ⟨⟨hquotient, ⟨?_, ?_, Or.inl ?_⟩, ?_⟩, hrefined⟩
  · rw [hsum]
    positivity
  · rw [hsum]
    linarith [largest_add_two_lt, Format.largest_pos (F := binary32)]
  · rw [hsum, minExponent_binary32]
    have hmin : (2 : ℝ) ^ (-126 : ℤ) ≤ 2 ^ (-k : ℤ) := zpow_le_zpow_right₀ one_le_two (by omega)
    linarith
  · rw [hrefined]
    exact two_zpow_mem (by omega) (by omega)

/-- The guess with the given number of steps left: the number itself, and later a power of two. -/
inductive ReachedByHalving (a : ℝ) : ℕ → ℝ → Prop
  | start : ReachedByHalving a Primitives.rootSteps a
  | halved {n : ℕ} (k : ℕ) (hn : n + (k + 1) = Primitives.rootSteps) :
    ReachedByHalving a n (2 ^ (-(k + 1 : ℕ) : ℤ))

theorem ReachedByHalving.eq_two_zpow {n : ℕ} (h : ReachedByHalving a n g)
    (hn : n < Primitives.rootSteps) : g = 2 ^ (-(Primitives.rootSteps - n : ℕ) : ℤ) := by
  cases h with
  | start => exact absurd hn (lt_irrefl _)
  | halved k hk => rw [show Primitives.rootSteps - n = k + 1 by omega]

section

variable (hpos : 0 < a) (hsmall : a < 2 ^ binary32.minExponent)

include hpos hsmall

theorem refined_self : Proceeds a a ∧ refined a a = 2 ^ (-(0 + 1 : ℕ) : ℤ) := by
  have hquotient : a / a = 1 := div_self hpos.ne'
  refine refined_of_sum_eq (by norm_num) ?_ hpos.le ?_ ?_
  · rw [hquotient]
    exact inReach_of_mem one_pos one_mem
  · rw [minExponent_binary32] at hsmall
    exact hsmall.trans (zpow_lt_zpow_right₀ one_lt_two (by norm_num))
  · rw [hquotient, Format.toNearest_eq regular_binary32 one_mem, add_comm]
    norm_num

theorem refined_two_zpow (ha : a ∈ binary32.finiteValues) {k : ℕ} (hk : k < 10) :
    Proceeds a (2 ^ (-k : ℤ)) ∧ refined a (2 ^ (-k : ℤ)) = 2 ^ (-(k + 1 : ℕ) : ℤ) := by
  have hquotient : a / 2 ^ (-k : ℤ) = 2 ^ k * a := by
    rw [zpow_neg, zpow_natCast, div_inv_eq_mul, mul_comm]
  have hlt : 2 ^ k * a < 2 ^ (-117 : ℤ) := by
    rw [minExponent_binary32] at hsmall
    calc 2 ^ k * a ≤ 2 ^ 9 * a := by gcongr; exacts [one_le_two, by omega]
      _ < 2 ^ 9 * 2 ^ (-126 : ℤ) := by gcongr
      _ = 2 ^ (-117 : ℤ) := by norm_num
  have hmem : 2 ^ k * a ∈ binary32.finiteValues := by
    refine Format.two_pow_mul_mem_finiteValues regular_binary32 ha k ?_
    rw [abs_of_pos (by positivity), largest_binary32]
    exact hlt.le.trans (by norm_num)
  refine refined_of_sum_eq hk ?_ (by positivity) hlt ?_
  · rw [hquotient]
    exact inReach_of_mem (by positivity) hmem
  · rw [hquotient, Format.toNearest_eq regular_binary32 hmem]

theorem yields_sqrtApprox_of_subnormal (hx : Holds x a) : Yields (primitives.sqrtApprox x)
    fun w => ∃ r, Holds w r ∧ ReachedByHalving a 0 r := by
  refine yields_sqrtApprox (ReachedByHalving a) hx (fun n g hg => ?_) .start
  generalize hm : n + 1 = m at hg
  cases hg with
  | start =>
    obtain ⟨hproceeds, hrefined⟩ := refined_self hpos hsmall
    exact ⟨hproceeds, hrefined ▸ .halved 0 hm⟩
  | halved k hn =>
    have hk : k + 1 < 10 := by
      unfold Primitives.rootSteps at hn
      omega
    obtain ⟨hproceeds, hrefined⟩ := refined_two_zpow hpos hsmall hx.mem hk
    exact ⟨hproceeds, hrefined ▸ .halved (k + 1) (by omega)⟩

end

/-- The iteration ends with a normal number that falls short of the root by rounding errors at
most. -/
theorem yields_sqrtApprox_ge (hx : Holds x a) : Yields (primitives.sqrtApprox x)
    fun w => ∃ r, Holds w r ∧ 2 ^ binary32.minExponent ≤ r ∧ (1 - 1 / 2 ^ 21) * a ≤ r ^ 2 := by
  have hpos := hx.pos
  rcases le_or_gt (2 ^ binary32.minExponent) a with hnormal | hsmall
  · refine (yields_sqrtApprox_of_normal hnormal hx).mono fun w h => ?_
    obtain ⟨r, hr, hrange, hsquare⟩ := h
    refine ⟨r, hr, (two_zpow_le_min_one hnormal).trans hrange.lower, ?_⟩
    calc (1 - 1 / 2 ^ 21) * a ≤ (1 - roundoff) ^ 4 * a := by
          gcongr
          norm_num [roundoff_eq]
      _ ≤ r ^ 2 := hsquare (by decide)
  · refine (yields_sqrtApprox_of_subnormal hpos hsmall hx).mono fun w h => ?_
    obtain ⟨r, hr, hpower⟩ := h
    obtain rfl : r = 2 ^ (-(Primitives.rootSteps - 0 : ℕ) : ℤ) := hpower.eq_two_zpow (by decide)
    rw [minExponent_binary32] at hsmall ⊢
    refine ⟨_, hr, zpow_le_zpow_right₀ one_le_two (by decide), ?_⟩
    rw [Primitives.rootSteps]
    norm_num at hsmall ⊢
    linarith

/-- For every positive number, subnormal ones included, the approximate root is a normal number
whose square is too small by rounding errors at most, and nothing but inexact is raised. -/
theorem sqrtApprox_never_underestimates {v : ℚ} (hv : (ofWord x).value? = .ok (some v))
    (hpos : 0 < v) :
    ∃ y f q, primitives.sqrtApprox x ∅ = (y, f) ∧ (ofWord y).classify = .positiveNormal ∧
      (ofWord y).value? = .ok (some q) ∧ (1 - 1 / 2 ^ 21) * v ≤ q ^ 2 ∧ (f = ∅ ∨ f = Flags.nx) := by
  obtain ⟨⟨r, hr, hnormal, hsquare⟩, hflags⟩ := yields_sqrtApprox_ge (holds_of_value? hv hpos) ∅
  obtain ⟨q, hq, rfl⟩ := hr.value?
  refine ⟨_, _, q, rfl, hr.classify_eq hnormal, hq, ?_, ?_⟩
  · refine (Rat.cast_le (K := ℝ)).mp ?_
    push_cast
    exact hsquare
  · rwa [Flags.empty_union] at hflags

/-- The least positive number. -/
theorem sqrtApprox_never_underestimates_subnormal :
    (ofWord 1).value? = .ok (some (1 / 2 ^ 149)) ∧ (0 : ℚ) < 1 / 2 ^ 149 ∧
      ∃ y f q, primitives.sqrtApprox 1 ∅ = (y, f) ∧ (ofWord y).classify = .positiveNormal ∧
        (ofWord y).value? = .ok (some q) ∧ (1 - 1 / 2 ^ 21) * (1 / 2 ^ 149) ≤ q ^ 2 ∧
        (f = ∅ ∨ f = Flags.nx) := by
  have hv : (ofWord 1).value? = .ok (some (1 / 2 ^ 149)) := by decide +kernel
  have hpos : (0 : ℚ) < 1 / 2 ^ 149 := by positivity
  exact ⟨hv, hpos, sqrtApprox_never_underestimates hv hpos⟩

end HartFloat.Backend.Soft
