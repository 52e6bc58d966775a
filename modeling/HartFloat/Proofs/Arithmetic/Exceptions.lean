import HartFloat.Pattern.Compare
import HartFloat.Pattern.Integer
import HartFloat.Proofs.Arithmetic.Operations
import HartFloat.Proofs.Pattern.Integer

/-!
# The exceptions of arithmetic

An exact result that is a finite value is delivered as it is, and a sum of two finite values that
lies below the least normal number is one: both are multiples of the least distance between values.
Sums therefore never underflow. In general the exceptions of an operation come in few combinations:
invalid operation and division by zero come alone, and overflow and underflow only with inexact.
-/
namespace HartFloat

namespace Format

variable {F : Format} {mode : RoundingMode}

theorem neg_mem_finiteValues (h : F.Regular) {r : ℝ} (hr : r ∈ F.finiteValues) :
    -r ∈ F.finiteValues := by
  obtain ⟨s, n, k, hn, hlo, hhi, rfl⟩ := exists_of_mem_finiteValues h hr
  have hneg := significand_mem_finiteValues h s.flip hn hlo hhi
  rwa [Sign.factor_flip, Int.cast_neg, neg_mul, neg_mul] at hneg

theorem exists_multiple_of_mem_finiteValues (h : F.Regular) {r : ℝ} (hr : r ∈ F.finiteValues) :
    ∃ j : ℤ, r = j * F.spacing F.minExponent := by
  obtain ⟨s, n, k, -, hk, -, rfl⟩ := exists_of_mem_finiteValues h hr
  obtain ⟨j, hj⟩ := exists_multiple (F := F) hk (s.factor * n)
  refine ⟨j, ?_⟩
  rw [← hj]
  push_cast
  rfl

theorem spacing_minExponent_le_abs (h : F.Regular) {r : ℝ} (hr : r ∈ F.finiteValues)
    (hne : r ≠ 0) : F.spacing F.minExponent ≤ |r| := by
  obtain ⟨j, rfl⟩ := exists_multiple_of_mem_finiteValues h hr
  have hj : (1 : ℝ) ≤ |(j : ℝ)| := by
    exact_mod_cast Int.one_le_abs (by rintro rfl; simp at hne)
  rw [abs_mul, abs_of_pos spacing_pos]
  exact le_mul_of_one_le_left spacing_pos.le hj

theorem abs_lt_two_zpow_of_mem (h : F.Regular) {r : ℝ} (hr : r ∈ F.finiteValues) :
    |r| < 2 ^ (F.maxExponent + 1) :=
  (abs_le_largest h hr).trans_lt largest_lt

theorem multiple_mem_finiteValues (h : F.Regular) {j k : ℤ} (hj : |j| < (2 * F.unit : ℕ))
    (hlo : F.minExponent ≤ k) (hhi : k ≤ F.maxExponent) : j * F.spacing k ∈ F.finiteValues := by
  have hn : j.natAbs < 2 * F.unit := by
    rw [Int.abs_eq_natAbs] at hj
    omega
  have hmem := significand_mem_finiteValues h (Sign.ofInt j) hn hlo hhi
  rwa [Exact.Surd.factor_ofInt_mul_natAbs] at hmem

/-- A sum of finite values that lies below the normal range is a finite value. -/
theorem add_mem_finiteValues (h : F.Regular) {r s : ℝ} (hr : r ∈ F.finiteValues)
    (hs : s ∈ F.finiteValues) (hlt : |r + s| < 2 ^ F.minExponent) : r + s ∈ F.finiteValues := by
  obtain ⟨j, rfl⟩ := exists_multiple_of_mem_finiteValues h hr
  obtain ⟨k, rfl⟩ := exists_multiple_of_mem_finiteValues h hs
  rw [← add_mul, ← Int.cast_add] at hlt ⊢
  rw [abs_mul, abs_of_pos spacing_pos, ← unit_mul_spacing, mul_lt_mul_iff_left₀ spacing_pos] at hlt
  have hsum : |j + k| < F.unit := by exact_mod_cast hlt
  exact multiple_mem_finiteValues h (by omega) le_rfl h.minExponent_le_maxExponent

theorem fieldValue_nonneg {x : Pattern F} (hx : x.sign = .positive) : 0 ≤ (x.fieldValue : ℝ) := by
  rw [Pattern.fieldValue, hx]
  simp only [Sign.factor]
  positivity

theorem fieldValue_nonpos {x : Pattern F} (hx : x.sign = .negative) : (x.fieldValue : ℝ) ≤ 0 := by
  rw [Pattern.fieldValue, hx]
  simp only [Sign.factor, Int.cast_neg, Int.cast_one, neg_mul, one_mul, Rat.cast_neg,
    Left.neg_nonpos_iff]
  positivity

theorem fieldValue_of_extended? {v : ℝ} {y : Pattern F} (hy : y.extended? = some (v : EReal)) :
    y.HasFiniteFields ∧ (y.fieldValue : ℝ) = v := by
  by_cases hfinite : y.HasFiniteFields
  · rw [extended?_of_finite hfinite, Option.some.injEq, EReal.coe_eq_coe_iff] at hy
    exact ⟨hfinite, hy⟩
  · rw [Pattern.extended?, if_neg hfinite] at hy
    split_ifs at hy
    exact absurd (Option.some.inj hy) (infinity_ne_coe _ v)

theorem IsRounding.extended?_eq (h : F.Regular) {v : ℝ} {y : Pattern F}
    (hy : F.IsRounding mode v y) (hv : v ∈ F.finiteValues) : y.extended? = some (v : EReal) := by
  have hmem : (v : EReal) ∈ F.extendedValues :=
    Set.mem_insert_of_mem _ (Set.mem_insert_of_mem _ ⟨v, hv, rfl⟩)
  have hnearest {tie : ℝ → Prop} (hy : F.RoundsToNearest v y tie) :
      y.extended? = some (v : EReal) := by
    have hlt : |v| < F.overflowThreshold :=
      (abs_le_largest h hv).trans_lt largest_lt_overflowThreshold
    rw [RoundsToNearest, if_neg hlt.not_ge] at hy
    have hdist := (hy.2 v hv).1
    rw [sub_self, abs_zero, abs_nonpos_iff, sub_eq_zero] at hdist
    rw [extended?_of_finite hy.1, hdist]
  have hrounds := hy.rounds
  cases mode with
  | tiesToEven => exact hnearest hrounds
  | tiesToAway => exact hnearest hrounds
  | towardNegative =>
    obtain ⟨z, hz, hgreatest⟩ := hrounds
    rw [hz, hgreatest.unique ⟨⟨hmem, le_rfl⟩, fun w hw => hw.2⟩]
  | towardPositive =>
    obtain ⟨z, hz, hleast⟩ := hrounds
    rw [hz, hleast.unique ⟨⟨hmem, le_rfl⟩, fun w hw => hw.2⟩]
  | towardZero =>
    obtain ⟨hfinite, hgreatest⟩ := hrounds
    have habs : |(y.fieldValue : ℝ)| = |v| :=
      hgreatest.unique ⟨⟨⟨v, hv, rfl⟩, le_rfl⟩, fun a ha => ha.2⟩
    rw [extended?_of_finite hfinite]
    congr 2
    rcases lt_trichotomy v 0 with hneg | rfl | hpos
    · rw [abs_of_neg hneg, abs_of_nonpos (fieldValue_nonpos (hy.sign_of_neg hneg))] at habs
      exact neg_injective habs
    · rwa [abs_zero, abs_eq_zero] at habs
    · rwa [abs_of_pos hpos, abs_of_nonneg (fieldValue_nonneg (hy.sign_of_pos hpos))] at habs

end Format

/-- Invalid operation and division by zero come alone, overflow and underflow with inexact. -/
structure Flags.IsCoherent (f : Flags) : Prop where
  invalid : f.invalid = true → f = nv
  divisionByZero : f.divisionByZero = true → f = dz
  inexact : f.overflow = true ∨ f.underflow = true → f.inexact = true

theorem Flags.isCoherent_empty : (∅ : Flags).IsCoherent := ⟨by decide, by decide, by decide⟩

theorem Flags.isCoherent_nv : nv.IsCoherent := ⟨by decide, by decide, by decide⟩

namespace ExactResult

variable {F : Format} {c : Context} {r : ExactResult} {y : Pattern F} {f : Flags}

theorem Delivers.isCoherent (h : F.Regular) (hc : c.exceptions = .ignoreExactUnderflow)
    (hr : r.Delivers F c y f) : f.IsCoherent := by
  cases r with
  | invalid =>
    obtain ⟨-, -, rfl⟩ := hr
    exact Flags.isCoherent_nv
  | divisionByZero s =>
    obtain ⟨-, rfl⟩ := hr
    exact ⟨by decide, by decide, by decide⟩
  | infinite s | zero s =>
    obtain ⟨-, rfl⟩ := hr
    exact Flags.isCoherent_empty
  | value q =>
    obtain ⟨-, hf⟩ := hr
    refine ⟨fun hinvalid => ?_, fun hdz => ?_, ?_⟩
    · cases hf.invalid.symm.trans hinvalid
    · cases hf.divisionByZero.symm.trans hdz
    · rintro (hof | huf)
      · exact hf.inexact.mpr ((hf.overflow.mp hof).extended?_ne h y)
      · obtain ⟨-, -, hne | hexact, -⟩ := hf.underflow.mp huf
        · exact hf.inexact.mpr hne
        · cases hc.symm.trans hexact

theorem Delivers.divisionByZero_iff (hr : r.Delivers F c y f) :
    f.divisionByZero = true ↔ ∃ s, r = divisionByZero s := by
  cases r with
  | invalid =>
    obtain ⟨-, -, rfl⟩ := hr
    exact iff_of_false (by decide) nofun
  | divisionByZero s =>
    obtain ⟨-, rfl⟩ := hr
    exact iff_of_true rfl ⟨s, rfl⟩
  | infinite s | zero s =>
    obtain ⟨-, rfl⟩ := hr
    exact iff_of_false (by decide) nofun
  | value q =>
    obtain ⟨-, hf⟩ := hr
    exact iff_of_false (by rw [hf.divisionByZero]; decide) nofun

/-- An exact result that is a finite value wherever it is tiny does not underflow. -/
theorem Delivers.underflow_eq_false (h : F.Regular) (hc : c.exceptions = .ignoreExactUnderflow)
    (hr : r.Delivers F c y f)
    (hexact : ∀ q : ℚ, r = value q → |(q : ℝ)| < 2 ^ F.minExponent → (q : ℝ) ∈ F.finiteValues) :
    f.underflow = false := by
  cases r with
  | invalid =>
    obtain ⟨-, -, rfl⟩ := hr
    rfl
  | divisionByZero s | infinite s | zero s =>
    obtain ⟨-, rfl⟩ := hr
    rfl
  | value q =>
    obtain ⟨hround, hf⟩ := hr
    refine Bool.eq_false_iff.mpr fun huf => ?_
    obtain ⟨-, hlt, hne | hsignal, -⟩ := hf.underflow.mp huf
    · exact hne (hround.extended?_eq h (hexact q rfl hlt))
    · cases hc.symm.trans hsignal

end ExactResult

namespace Number

variable {F : Format} {mode : RoundingMode} {a b : Number} {q : ℚ}

/-- A finite number is one of the values of the format. -/
def IsIn (F : Format) : Number → Prop
  | finite _ q => (q : ℝ) ∈ F.finiteValues
  | infinite _ => True

theorem IsIn.neg (h : F.Regular) (ha : a.IsIn F) : a.neg.IsIn F := by
  cases a with
  | infinite s => trivial
  | finite s q =>
    have hneg := Format.neg_mem_finiteValues h ha
    rw [← Rat.cast_neg] at hneg
    exact hneg

theorem exact_of_add (h : F.Regular) (ha : a.IsIn F) (hb : b.IsIn F)
    (hq : a.add mode b = .value q) (hlt : |(q : ℝ)| < 2 ^ F.minExponent) :
    (q : ℝ) ∈ F.finiteValues := by
  cases a with
  | infinite s =>
    cases b with
    | infinite t =>
      rw [add] at hq
      split_ifs at hq
    | finite t p => cases hq
  | finite s p =>
    cases b with
    | infinite t => cases hq
    | finite t p' =>
      rw [add] at hq
      split_ifs at hq
      obtain rfl := ExactResult.value.inj hq
      rw [Rat.cast_add] at hlt ⊢
      exact Format.add_mem_finiteValues h ha hb hlt

theorem add_ne_divisionByZero (s : Sign) : a.add mode b ≠ .divisionByZero s := by
  intro h
  cases a with
  | infinite s =>
    cases b with
    | infinite t =>
      rw [add] at h
      split_ifs at h
    | finite t q => cases h
  | finite s p =>
    cases b with
    | infinite t => cases h
    | finite t q =>
      rw [add] at h
      split_ifs at h

theorem mul_ne_divisionByZero (s : Sign) : a.mul b ≠ .divisionByZero s := by
  intro h
  unfold mul at h
  split at h
  · cases h
  · cases h
  · split_ifs at h

theorem div_eq_divisionByZero_iff :
    (∃ s, a.div b = .divisionByZero s) ↔
      (∃ s p, a = finite s p ∧ p ≠ 0) ∧ ∃ s, b = finite s 0 := by
  cases a with
  | infinite s => cases b <;> simp [div]
  | finite s p =>
    cases b with
    | infinite t => simp [div]
    | finite t q => by_cases hp : p = 0 <;> by_cases hq : q = 0 <;> simp [div, hp, hq]

end Number

theorem ExactResult.Delivers.flags_of_add {F : Format} {c : Context} {mode : RoundingMode}
    {a b : Number} {y : Pattern F} {f : Flags} (h : F.Regular)
    (hc : c.exceptions = .ignoreExactUnderflow) (hr : (a.add mode b).Delivers F c y f)
    (ha : a.IsIn F) (hb : b.IsIn F) :
    f.IsCoherent ∧ f.divisionByZero = false ∧ f.underflow = false := by
  refine ⟨hr.isCoherent h hc, ?_, hr.underflow_eq_false h hc fun q => Number.exact_of_add h ha hb⟩
  rw [Bool.eq_false_iff, ne_eq, hr.divisionByZero_iff]
  rintro ⟨s, hs⟩
  exact Number.add_ne_divisionByZero s hs

namespace Pattern

variable {F : Format} {c : Context} {x y : Pattern F} {a b : Number}

theorem isIn_of_number? (hx : x.number? = some a) : a.IsIn F := by
  cases a with
  | infinite s => trivial
  | finite s q =>
    obtain ⟨hfinite, -, rfl⟩ := number?_eq_finite hx
    exact ⟨x, hfinite, rfl⟩

theorem signaled_cases (xs : List (Pattern F)) : signaled xs = ∅ ∨ signaled xs = Flags.nv := by
  unfold signaled Flags.when
  split_ifs
  · exact Or.inr rfl
  · exact Or.inl rfl

theorem isZero_eq_false_of_isNaN (hx : x.isNaN = true) : x.isZero = false := by
  rw [isNaN] at hx
  rw [isZero]
  revert hx
  cases x.classify <;> decide

theorem isSignaling_eq_false_of_isNaN (hx : x.isNaN = false) : x.isSignaling = false := by
  rw [isNaN] at hx
  rw [isSignaling]
  revert hx
  cases x.classify <;> decide

/-- What holds of the exceptions of an operation: with a NaN among the operands there is none but
invalid operation, and otherwise an exact result is delivered. -/
theorem exists_flags (h : F.Regular) (hw : F.exponentWidth ≤ 63) {p : Flags → Prop}
    {op : Context → Pattern F → Pattern F → Outcome (Pattern F)}
    (hop : op ∈ [add, sub, mul, div, remainder])
    (hnan : x.isNaN = true ∨ y.isNaN = true → p ∅ ∧ p Flags.nv)
    (hnumbers : ∀ a b, x.number? = some a → y.number? = some b →
      ∃ r : ExactResult, op c x y = r.outcome F c ∧ ∀ z f, r.Delivers F c z f → p f) :
    ∃ z f, op c x y = .ok (z, f) ∧ p f := by
  by_cases hxy : x.isNaN = true ∨ y.isNaN = true
  · refine ⟨_, _, eq_binaryNaN hop hxy c, ?_⟩
    obtain ⟨hempty, hnv⟩ := hnan hxy
    rcases signaled_cases [x, y] with hf | hf
    · rwa [hf]
    · rwa [hf]
  · rw [not_or, Bool.not_eq_true, Bool.not_eq_true] at hxy
    obtain ⟨a, ha⟩ := exists_number?_of_not_isNaN h hxy.1
    obtain ⟨b, hb⟩ := exists_number?_of_not_isNaN h hxy.2
    obtain ⟨r, hr, hp⟩ := hnumbers a b ha hb
    obtain ⟨z, f, hz, hdelivers⟩ := r.isOutcome_outcome h hw c
    exact ⟨z, f, hr.trans hz, hp z f hdelivers⟩

section

variable (h : F.Regular) (hi : F.implicitLeadingBit = true)

include h hi

theorem isZero_iff_of_number? (hx : x.number? = some a) :
    x.isZero = true ↔ ∃ s, a = .finite s 0 := by
  cases a with
  | infinite s =>
    obtain ⟨-, hzero, -⟩ := number?_infinite h hi hx
    rw [hzero]
    refine iff_of_false (by decide) ?_
    rintro ⟨t, ht⟩
    cases ht
  | finite s q =>
    obtain ⟨-, hzero, -, -⟩ := number?_finite h hi hx
    rw [hzero, decide_eq_true_eq]
    constructor
    · rintro rfl
      exact ⟨s, rfl⟩
    · rintro ⟨t, ht⟩
      exact (Number.finite.inj ht).2

theorem isFinite_and_isZero_iff (hx : x.number? = some a) :
    x.isFinite = true ∧ x.isZero = false ↔ ∃ s q, a = .finite s q ∧ q ≠ 0 := by
  have hnan := isNaN_of_number? h hi hx
  rw [isNaN] at hnan
  rw [isFinite, NumberClass.isFinite, hnan]
  cases a with
  | infinite s =>
    obtain ⟨hinfinity, -, -⟩ := number?_infinite h hi hx
    rw [isInfinity] at hinfinity
    rw [hinfinity]
    refine iff_of_false ?_ ?_
    · rintro ⟨hfinite, -⟩
      cases hfinite
    · rintro ⟨t, q, ht, -⟩
      cases ht
  | finite s q =>
    obtain ⟨hinfinity, hzero, -, -⟩ := number?_finite h hi hx
    rw [isInfinity] at hinfinity
    rw [hinfinity, hzero, decide_eq_false_iff_not]
    constructor
    · rintro ⟨-, hq⟩
      exact ⟨s, q, rfl, hq⟩
    · rintro ⟨t, p, hp, hne⟩
      obtain ⟨-, rfl⟩ := Number.finite.inj hp
      exact ⟨rfl, hne⟩

end

section

variable (h : F.Regular) (hi : F.implicitLeadingBit = true) (hw : F.exponentWidth ≤ 63)
  (hc : c.exceptions = .ignoreExactUnderflow)

include h hi hw hc

theorem flags_add (x y : Pattern F) : ∃ z f, add c x y = .ok (z, f) ∧
    f.IsCoherent ∧ f.divisionByZero = false ∧ f.underflow = false := by
  refine exists_flags h hw (by simp) (fun _ => ?_) fun a b ha hb => ⟨_, add_eq h hi hw ha hb, ?_⟩
  · exact ⟨⟨Flags.isCoherent_empty, rfl, rfl⟩, Flags.isCoherent_nv, rfl, rfl⟩
  · exact fun z f hr => hr.flags_of_add h hc (isIn_of_number? ha) (isIn_of_number? hb)

theorem flags_sub (x y : Pattern F) : ∃ z f, sub c x y = .ok (z, f) ∧
    f.IsCoherent ∧ f.divisionByZero = false ∧ f.underflow = false := by
  refine exists_flags h hw (by simp) (fun _ => ?_) fun a b ha hb => ⟨_, sub_eq h hi hw ha hb, ?_⟩
  · exact ⟨⟨Flags.isCoherent_empty, rfl, rfl⟩, Flags.isCoherent_nv, rfl, rfl⟩
  · exact fun z f hr => hr.flags_of_add h hc (isIn_of_number? ha) ((isIn_of_number? hb).neg h)

theorem flags_mul (x y : Pattern F) : ∃ z f, mul c x y = .ok (z, f) ∧
    f.IsCoherent ∧ f.divisionByZero = false := by
  refine exists_flags h hw (by simp) (fun _ => ?_) fun a b ha hb => ⟨_, mul_eq h hi hw ha hb, ?_⟩
  · exact ⟨⟨Flags.isCoherent_empty, rfl⟩, Flags.isCoherent_nv, rfl⟩
  · intro z f hr
    refine ⟨hr.isCoherent h hc, ?_⟩
    rw [Bool.eq_false_iff, ne_eq, hr.divisionByZero_iff]
    rintro ⟨s, hs⟩
    exact Number.mul_ne_divisionByZero s hs

theorem flags_div (x y : Pattern F) : ∃ z f, div c x y = .ok (z, f) ∧ f.IsCoherent ∧
    (f.divisionByZero = true ↔ (x.isFinite = true ∧ x.isZero = false) ∧ y.isZero = true) := by
  refine exists_flags h hw (by simp) (fun hnan => ?_) fun a b ha hb =>
    ⟨_, div_eq h hi hw ha hb, ?_⟩
  · have hnot : ¬((x.isFinite = true ∧ x.isZero = false) ∧ y.isZero = true) := by
      rintro ⟨⟨hfinite, -⟩, hzero⟩
      rcases hnan with hx | hy
      · rw [isFinite, NumberClass.isFinite, show x.classify.isNaN = true from hx] at hfinite
        cases hfinite
      · rw [isZero_eq_false_of_isNaN hy] at hzero
        cases hzero
    exact ⟨⟨Flags.isCoherent_empty, iff_of_false (by decide) hnot⟩, Flags.isCoherent_nv,
      iff_of_false (by decide) hnot⟩
  · intro z f hr
    refine ⟨hr.isCoherent h hc, ?_⟩
    rw [hr.divisionByZero_iff, Number.div_eq_divisionByZero_iff,
      isFinite_and_isZero_iff h hi ha, isZero_iff_of_number? h hi hb]

end

theorem exists_order (hw : F.exponentWidth ≤ 63) (x y : Pattern F) : ∃ o, x.order y = .ok o := by
  unfold order
  rw [ratio_eq hw, ratio_eq hw]
  split_ifs <;> exact ⟨_, rfl⟩

theorem flags_compareQuiet (hw : F.exponentWidth ≤ 63) (x y : Pattern F) :
    ∃ o, compareQuiet x y = .ok (o, Flags.when (x.isSignaling || y.isSignaling) Flags.nv) := by
  unfold compareQuiet compare
  split_ifs with hnan
  · exact ⟨_, rfl⟩
  · rw [Bool.or_eq_true, not_or, Bool.not_eq_true, Bool.not_eq_true] at hnan
    obtain ⟨o, ho⟩ := exists_order hw x y
    rw [isSignaling_eq_false_of_isNaN hnan.1, isSignaling_eq_false_of_isNaN hnan.2, ho]
    exact ⟨_, rfl⟩

theorem flags_compareSignaling (hw : F.exponentWidth ≤ 63) (x y : Pattern F) :
    ∃ o, compareSignaling x y = .ok (o, Flags.when (x.isNaN || y.isNaN) Flags.nv) := by
  unfold compareSignaling compare
  split_ifs with hnan
  · rw [hnan]
    exact ⟨_, rfl⟩
  · obtain ⟨o, ho⟩ := exists_order hw x y
    rw [Bool.eq_false_iff.mpr hnan, ho]
    exact ⟨_, rfl⟩

theorem flags_toIntegerType (hw : F.exponentWidth ≤ 63) (c : Context) (exact : Bool)
    (t : IntegerType) (x : Pattern F) :
    ∃ n? f, x.toIntegerType c exact t = .ok (n?, f) ∧ (f = ∅ ∨ f = Flags.nv ∨ f = Flags.nx) := by
  cases hfinite : x.isFinite with
  | false => exact ⟨_, _, toIntegerType_of_not_isFinite hfinite c exact t, Or.inr (Or.inl rfl)⟩
  | true =>
    rw [toIntegerType_of_isFinite hw hfinite]
    split_ifs
    · refine ⟨_, _, rfl, ?_⟩
      rw [Flags.when]
      split_ifs
      · exact Or.inr (Or.inr rfl)
      · exact Or.inl rfl
    · exact ⟨_, _, rfl, Or.inr (Or.inl rfl)⟩

/-- An integer up to the largest value raises at most inexact, and does so if it is no value. -/
theorem flags_ofInteger (h : F.Regular) (hw : F.exponentWidth ≤ 63) (c : Context) {n : ℤ}
    (hn : |(n : ℝ)| ≤ F.largest) :
    ∃ y f, ofInteger F c n = .ok (y, f) ∧ (f = ∅ ∨ f = Flags.nx) ∧
      (f = Flags.nx ↔ (n : ℝ) ∉ F.finiteValues) := by
  have hround := F.isRounding_rounding h c (Exact.Surd.ofInt n)
  have hf := F.raises_rounding h c (Exact.Surd.ofInt n)
  rw [Exact.Surd.toReal_ofInt] at hround hf
  rw [ofInteger, Format.round_eq hw]
  generalize F.rounding c (Exact.Surd.ofInt n) = r at hround hf ⊢
  obtain ⟨y, f⟩ := r
  dsimp only at hround hf
  refine ⟨y, f, rfl, ?_⟩
  have hoverflow : f.overflow = false := by
    rw [Bool.eq_false_iff, ne_eq, hf.overflow]
    exact fun ho => ho.largest_lt_abs.not_ge hn
  have hunderflow : f.underflow = false := by
    rw [Bool.eq_false_iff, ne_eq, hf.underflow]
    rintro ⟨hpos, hlt, -⟩
    have hone : (1 : ℝ) ≤ |(n : ℝ)| := by
      rw [← Int.cast_abs, Int.cast_pos] at hpos
      exact_mod_cast hpos
    exact (hone.trans_lt hlt).not_ge (zpow_le_one_of_nonpos₀ one_le_two h.minExponent_le)
  have hinexact : f.inexact = true ↔ (n : ℝ) ∉ F.finiteValues := by
    rw [hf.inexact, not_iff_not]
    exact ⟨fun he => ⟨_, Format.fieldValue_of_extended? he⟩, hround.extended?_eq h⟩
  have hflags : f = Flags.when f.inexact Flags.nx := by
    ext
    · rw [hf.invalid]
      cases f.inexact <;> rfl
    · rw [hf.divisionByZero]
      cases f.inexact <;> rfl
    · rw [hoverflow]
      cases f.inexact <;> rfl
    · rw [hunderflow]
      cases f.inexact <;> rfl
    · cases f.inexact <;> rfl
  rw [← hinexact, hflags]
  cases f.inexact <;> decide

end Pattern
end HartFloat
