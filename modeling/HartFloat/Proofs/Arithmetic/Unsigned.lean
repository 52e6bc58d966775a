import HartFloat.Environment
import HartFloat.Proofs.Arithmetic.Operations

/-!
# Formats without a sign bit

Rounding takes every negative value to positive zero where there is no sign bit. The operations
round their exact results and so inherit this, but zeros, infinities and the number next to zero
they ask for by sign, and fail where that is negative. Patterns without a sign stand for numbers
that are not negative, so it takes a difference, the next number below zero or a conversion from a
format with a sign bit to get there.
-/
namespace HartFloat

theorem NumberClass.isZero_withSign (k : NumberClass) (s : Sign) :
    (k.withSign s).isZero = k.isZero := by
  cases s <;> cases k <;> rfl

theorem NumberClass.isSubnormalOrZero_withSign (k : NumberClass) (s : Sign) :
    (k.withSign s).isSubnormalOrZero = k.isSubnormalOrZero := by
  cases s <;> cases k <;> rfl

theorem NumberClass.isFinite_of_isZero (k : NumberClass) : k.isZero = true → k.isFinite = true := by
  cases k <;> decide

namespace Pattern

variable {α : Type} {F S : Format} {x y z : Pattern F} {c : Context} {q : ℚ} {w : ℕ}
  {r o o' : Outcome α}

theorem isFinite_iff : x.isFinite = true ↔ x.isNaN = false ∧ x.isInfinity = false := by
  simp [isFinite, isNaN, isInfinity, NumberClass.isFinite]

theorem finiteValue?_eq_some_iff : x.finiteValue? = some q ↔ x.isFinite = true ∧ x.value = q := by
  simp [finiteValue?]

/-- Every finite pattern is a zero, subnormal or normal. A mantissa field of zero is that of a
zero, or of a normal number with an implied leading bit. -/
theorem classify_of_isFinite (hx : x.isFinite = true) :
    x.classify = NumberClass.positiveZero.withSign x.sign ∧ x.mantissa = 0 ∨
      x.classify = NumberClass.positiveSubnormal.withSign x.sign ∧ x.mantissa ≠ 0 ∨
      x.classify = NumberClass.positiveNormal.withSign x.sign ∧
        (F.implicitLeadingBit = true ∨ x.mantissa ≠ 0) := by
  rw [isFinite, classify] at hx
  rw [classify]
  generalize x.sign = s at hx
  unfold magnitudeClass at hx ⊢
  split_ifs at hx ⊢
  any_goals cases s <;> cases hx
  all_goals simp [*]

theorem significand_eq_zero_iff (hx : x.isFinite = true) :
    x.significand = 0 ↔ x.isZero = true := by
  have hu := F.unit_pos
  rw [significand, isZero]
  obtain ⟨hclass, hm⟩ | ⟨hclass, hm⟩ | ⟨hclass, hm⟩ := classify_of_isFinite hx <;>
    rw [hclass, NumberClass.isZero_withSign, NumberClass.isSubnormalOrZero_withSign]
  · simp +decide [hm]
  · simp +decide [hm]
  · have hpos : F.unit + x.mantissa ≠ 0 := by omega
    by_cases hi : F.implicitLeadingBit = true <;> simp_all +decide

theorem value_eq (x : Pattern F) :
    x.value = x.sign.factor * x.significand *
      2 ^ ((x.effectiveExponent : ℤ) - F.bias - F.fractionWidth) := by
  rw [value, binaryRat_eq, Sign.applyTo_eq]
  push_cast
  rfl

theorem value_eq_zero_iff (hx : x.isFinite = true) : x.value = 0 ↔ x.isZero = true := by
  have hfactor : (x.sign.factor : ℚ) ≠ 0 := Int.cast_ne_zero.mpr x.sign.factor_ne_zero
  have hpow : (2 : ℚ) ^ ((x.effectiveExponent : ℤ) - F.bias - F.fractionWidth) ≠ 0 :=
    zpow_ne_zero _ two_ne_zero
  rw [value_eq, mul_eq_zero, or_iff_left hpow, mul_eq_zero, or_iff_right hfactor,
    Nat.cast_eq_zero, significand_eq_zero_iff hx]

theorem isGivenBy_finite (hx : x.isFinite = true) :
    (Number.finite x.sign x.value).IsGivenBy x.classify x.value := by
  refine ⟨rfl, ?_⟩
  rw [ne_eq, value_eq_zero_iff hx, isZero]
  obtain ⟨hclass, -⟩ | ⟨hclass, -⟩ | ⟨hclass, -⟩ := classify_of_isFinite hx <;>
    rw [hclass, NumberClass.isZero_withSign]
  · exact Or.inl ⟨rfl, rfl⟩
  · exact Or.inr ⟨by decide, Or.inl rfl⟩
  · exact Or.inr ⟨by decide, Or.inr rfl⟩

theorem classify_of_isInfinity (hx : x.isInfinity = true) :
    x.classify = NumberClass.positiveInfinity.withSign x.sign := by
  rw [isInfinity, classify] at hx
  rw [classify]
  generalize x.sign = s at hx
  unfold magnitudeClass at hx ⊢
  split_ifs at hx ⊢
  any_goals cases s <;> cases hx
  all_goals rfl

theorem isNaN_of_isInfinity (hx : x.isInfinity = true) : x.isNaN = false := by
  rw [isNaN, classify_of_isInfinity hx]
  cases x.sign <;> rfl

/-- The second outcome is the first one, unless exponents of that width do not fit. -/
def GivesUnlessWide (width : ℕ) (r o : Outcome α) : Prop :=
  o = r ∨ 64 ≤ width ∧ o = .error .exponentTooWide

/-- The operation has a result, unless exponents of that width do not fit. -/
def Returns (width : ℕ) (o : Outcome α) : Prop := ∃ r, GivesUnlessWide width (.ok r) o

theorem GivesUnlessWide.ratio_bind {f : ℚ → Outcome α} (hw : F.exponentWidth ≤ w)
    (h : GivesUnlessWide w r (f x.value)) : GivesUnlessWide w r (x.ratio.bind f) := by
  rcases ratio_cases x with hx | ⟨hwide, hx⟩
  · rw [hx]
    exact h
  · rw [hx]
    exact Or.inr ⟨hwide.trans hw, rfl⟩

theorem Returns.ratio_bind {f : ℚ → Outcome α} (hw : F.exponentWidth ≤ w)
    (h : Returns w (f x.value)) : Returns w (x.ratio.bind f) :=
  h.imp fun _ => GivesUnlessWide.ratio_bind hw

theorem returns_ok (w : ℕ) (r : α × Flags) : Returns w (.ok r) := ⟨r, Or.inl rfl⟩

theorem returns_round (hw : F.exponentWidth ≤ w) (c : Context) (v : Exact.Surd) :
    Returns w (F.round c v) :=
  ⟨F.rounding c v, (F.round_cases c v).imp_right fun h => ⟨h.1.trans hw, h.2⟩⟩

theorem signed_positive (F : Format) (e m : ℕ) :
    signed F .positive e m = .ok (pack F .positive e m) := by
  simp [signed]

theorem returns_signed (F : Format) (e m : ℕ) (g : Pattern F → α × Flags) :
    Returns w ((signed F .positive e m).map g) := by
  rw [signed_positive]
  exact returns_ok _ _

theorem Returns.map {β : Type} (h : Returns w o) (g : α × Flags → β × Flags) :
    Returns w (o.map g) := by
  obtain ⟨r, rfl | ⟨hwide, rfl⟩⟩ := h
  · exact returns_ok _ _
  · exact ⟨g r, Or.inr ⟨hwide, rfl⟩⟩

theorem Returns.ite {p : Prop} [Decidable p] (h : Returns w o) (h' : Returns w o') :
    Returns w (if p then o else o') := by
  split_ifs
  · exact h
  · exact h'

theorem returns_of_isNaN {op : Context → Pattern F → Pattern F → Outcome (Pattern F)}
    (hop : op ∈ [add, sub, mul, div, remainder]) (h : x.isNaN = true ∨ y.isNaN = true)
    (c : Context) : Returns w (op c x y) := by
  rw [eq_binaryNaN hop h]
  exact returns_ok _ _

theorem returns_ofSum (hq : q ≠ 0) : Returns F.exponentWidth (ofSum F c q) := by
  rw [ofSum, if_neg hq]
  exact returns_round le_rfl c _

/-- What a format without a sign bit makes of an operation: it fails exactly in the given cases,
always for want of a sign, and a negative exact result becomes positive zero. Exponents of that
width may also not fit. -/
structure FailsWhere (width : ℕ) (p : Prop) (exact : Option ℚ) (o : Outcome (Pattern F)) :
    Prop where
  fails : p → GivesUnlessWide width (.error .noSignBit) o
  returns : ¬p → Returns width o
  negative : ∀ q, exact = some q → q < 0 →
    GivesUnlessWide width (.ok (positiveZero F, Flags.nx ∪ Flags.uf)) o

theorem FailsWhere.never {exact : Option ℚ} {o : Outcome (Pattern F)} (ho : Returns w o)
    (hexact : ∀ q, exact = some q → 0 ≤ q) : FailsWhere w False exact o where
  fails h := h.elim
  returns _ := ho
  negative q hq hneg := absurd (hexact q hq) (not_le.mpr hneg)

section

variable (hs : F.signBit = false)

include hs

theorem sign_eq_positive (x : Pattern F) : x.sign = .positive := by
  simp [sign, hs]

theorem quietly_signed_negative (e m : ℕ) :
    quietly (signed F .negative e m) = .error .noSignBit := by
  simp [signed, hs, quietly, Except.map]

theorem value_nonneg (x : Pattern F) : 0 ≤ x.value := by
  rw [value_eq, sign_eq_positive hs, Sign.factor, Int.cast_one, one_mul]
  positivity

theorem finiteValue?_nonneg (hq : x.finiteValue? = some q) : 0 ≤ q := by
  obtain ⟨-, rfl⟩ := finiteValue?_eq_some_iff.mp hq
  exact value_nonneg hs x

/-- Rounding takes every negative value to positive zero, whatever its exponent is. -/
theorem roundRat_of_neg (hq : q < 0) :
    F.roundRat c q = .ok (positiveZero F, Flags.nx ∪ Flags.uf) := by
  have hnum := Rat.num_neg.mpr hq
  have hsign : (Exact.Surd.ofRat q).sign = .negative := if_pos hnum
  have hzero := Exact.Surd.isZero_ofRat hq.ne
  rw [Format.roundRat, Format.round, Format.looksAtExponent, Format.rounding, hzero, hsign, hs]
  simp

omit hs in
theorem returns_addTerm_infinite (hx : x.classify = .positiveInfinity) (c : Context)
    (y : Pattern F) (k : NumberClass) (yRatio : Except Violation ℚ) :
    Returns w (addTerm c x y k yRatio) := by
  refine .ite (returns_ok _ _) (.ite (returns_ok _ _) ?_)
  rw [if_pos (by simp [hx])]
  exact returns_signed _ _ _ _

omit hs in
theorem addTerm_finite_infinite {s t : Sign} {p v : ℚ} {k : NumberClass}
    {yRatio : Except Violation ℚ} (hx : (Number.finite s p).IsGivenBy x.classify x.value)
    (hk : (Number.infinite t).IsGivenBy k v) :
    addTerm c x y k yRatio = quietly (infinity F t) := by
  rw [Number.IsGivenBy] at hk
  subst hk
  rw [addTerm]
  obtain ⟨-, ⟨-, hx⟩ | ⟨-, hx | hx⟩⟩ := hx <;> rw [hx] <;> cases s <;> cases t <;> rfl

theorem number_cases (x : Pattern F) :
    x.isNaN = true ∨
      (x.isInfinity = true ∧ (Number.infinite .positive).IsGivenBy x.classify x.value) ∨
      (x.isFinite = true ∧ (Number.finite .positive x.value).IsGivenBy x.classify x.value) := by
  have hsign := sign_eq_positive hs x
  cases hnan : x.isNaN with
  | true => exact Or.inl rfl
  | false =>
    cases hinf : x.isInfinity with
    | true => exact Or.inr (Or.inl ⟨rfl, hsign ▸ classify_of_isInfinity hinf⟩)
    | false =>
      have hfinite := isFinite_iff.mpr ⟨hnan, hinf⟩
      exact Or.inr (Or.inr ⟨hfinite, hsign ▸ isGivenBy_finite hfinite⟩)

theorem returns_add (c : Context) (x y : Pattern F) : Returns F.exponentWidth (x.add c y) := by
  by_cases hnan : x.isNaN = true ∨ y.isNaN = true
  · exact returns_of_isNaN (by simp) hnan c
  rcases number_cases hs x with hx | ⟨-, hx⟩ | ⟨-, hx⟩
  · exact absurd (Or.inl hx) hnan
  · exact returns_addTerm_infinite hx c y _ _
  · rcases number_cases hs y with hy | ⟨-, hy⟩ | ⟨-, hy⟩
    · exact absurd (Or.inr hy) hnan
    · rw [add, addTerm_finite_infinite hx hy]
      exact returns_signed _ _ _ _
    · rw [add, addTerm_finite hx hy]
      have hx0 := value_nonneg hs x
      have hy0 := value_nonneg hs y
      split_ifs with hzero
      · exact returns_signed _ _ _ _
      · refine .ratio_bind le_rfl (.ratio_bind le_rfl (returns_ofSum fun hsum => hzero ?_))
        refine ⟨?_, ?_, rfl⟩ <;> linarith

theorem sub_of_isInfinity (hx : x.isFinite = true) (hy : y.isInfinity = true) :
    x.sub c y = .error .noSignBit := by
  have hpos : (Number.infinite .positive).IsGivenBy y.classify y.value :=
    sign_eq_positive hs y ▸ classify_of_isInfinity hy
  rw [sub, addTerm_finite_infinite (isGivenBy_finite hx) hpos.neg]
  exact quietly_signed_negative hs _ _

/-- The zeros of a difference never have the same sign. -/
theorem givesUnlessWide_sub {r : Outcome (Pattern F)} (hx : x.isFinite = true)
    (hy : y.isFinite = true)
    (h : GivesUnlessWide F.exponentWidth r (ofSum F c (x.value - y.value))) :
    GivesUnlessWide F.exponentWidth r (x.sub c y) := by
  have hflip : ¬(x.value = 0 ∧ -y.value = 0 ∧ x.sign = y.sign.flip) := by
    rw [sign_eq_positive hs, sign_eq_positive hs]
    simp [Sign.flip]
  rw [sub, addTerm_finite (isGivenBy_finite hx) (isGivenBy_finite hy).neg, if_neg hflip]
  refine .ratio_bind le_rfl ?_
  rw [ratio_neg_bind]
  refine .ratio_bind le_rfl ?_
  rwa [← sub_eq_add_neg]

theorem ofSum_zero (c : Context) :
    ofSum F c 0 = if c.mode = .towardNegative then .error .noSignBit
      else .ok (positiveZero F, ∅) := by
  rw [ofSum, if_pos rfl, zero]
  cases c.mode
  case towardNegative => exact quietly_signed_negative hs 0 0
  all_goals exact congrArg _ (signed_positive F 0 0)

theorem failsWhere_sub (c : Context) (x y : Pattern F) :
    FailsWhere F.exponentWidth (x.isFinite = true ∧
        (y.isInfinity = true ∨ x.finiteValue? = y.finiteValue? ∧ c.mode = .towardNegative))
      (Option.map₂ (· - ·) x.finiteValue? y.finiteValue?) (x.sub c y) := by
  constructor
  case fails =>
    rintro ⟨hx, hy | ⟨hxy, hmode⟩⟩
    · exact Or.inl (sub_of_isInfinity hs hx hy)
    · obtain ⟨hy, hvalue⟩ := finiteValue?_eq_some_iff.mp
        (hxy.symm.trans (finiteValue?_eq_some_iff.mpr ⟨hx, rfl⟩))
      refine givesUnlessWide_sub hs hx hy (Or.inl ?_)
      rw [hvalue, sub_self, ofSum_zero hs, if_pos hmode]
  case returns =>
    intro h
    by_cases hnan : x.isNaN = true ∨ y.isNaN = true
    · exact returns_of_isNaN (by simp) hnan c
    rcases number_cases hs x with hx | ⟨-, hx⟩ | ⟨hx, -⟩
    · exact absurd (Or.inl hx) hnan
    · exact returns_addTerm_infinite hx c y _ _
    -- Taking infinity from a finite number was excluded, so both operands are finite.
    rcases number_cases hs y with hy | ⟨hy, -⟩ | ⟨hy, -⟩
    · exact absurd (Or.inr hy) hnan
    · exact absurd ⟨hx, Or.inl hy⟩ h
    · have hsum : Returns F.exponentWidth (ofSum F c (x.value - y.value)) := by
        by_cases hxy : x.value - y.value = 0
        · have hvalue : x.finiteValue? = y.finiteValue? := by
            rw [finiteValue?, finiteValue?, if_pos hx, if_pos hy, sub_eq_zero.mp hxy]
          rw [hxy, ofSum_zero hs, if_neg fun hmode => h ⟨hx, Or.inr ⟨hvalue, hmode⟩⟩]
          exact returns_ok _ _
        · exact returns_ofSum hxy
      exact hsum.imp fun _ => givesUnlessWide_sub hs hx hy
  case negative =>
    intro q hq hneg
    obtain ⟨p, r, hp, hr, rfl⟩ := Option.map₂_eq_some_iff.mp hq
    obtain ⟨hx, rfl⟩ := finiteValue?_eq_some_iff.mp hp
    obtain ⟨hy, rfl⟩ := finiteValue?_eq_some_iff.mp hr
    refine givesUnlessWide_sub hs hx hy (Or.inl ?_)
    rw [ofSum, if_neg hneg.ne, roundRat_of_neg hs hneg]

omit hs in
theorem returns_ratio₂ {f : ℚ → ℚ → Outcome α} (h : Returns F.exponentWidth (f x.value y.value)) :
    Returns F.exponentWidth (x.ratio.bind fun a => y.ratio.bind fun b => f a b) :=
  .ratio_bind le_rfl (.ratio_bind le_rfl h)

theorem returns_mul (c : Context) (x y : Pattern F) : Returns F.exponentWidth (x.mul c y) := by
  rw [mul, sign_eq_positive hs, sign_eq_positive hs]
  refine .ite (returns_ok _ _) (.ite (returns_ok _ _) ?_)
  refine .ite (returns_signed _ _ _ _) (.ite (returns_signed _ _ _ _) ?_)
  exact returns_ratio₂ (returns_round le_rfl c _)

theorem returns_div (c : Context) (x y : Pattern F) : Returns F.exponentWidth (x.div c y) := by
  rw [div, sign_eq_positive hs, sign_eq_positive hs]
  refine .ite (returns_ok _ _) (.ite (returns_ok _ _) (.ite (returns_signed _ _ _ _) ?_))
  refine .ite (returns_signed _ _ _ _) (.ite (returns_signed _ _ _ _) ?_)
  exact returns_ratio₂ (returns_round le_rfl c _)

theorem returns_remainder (c : Context) (x y : Pattern F) :
    Returns F.exponentWidth (x.remainder c y) := by
  rw [remainder, sign_eq_positive hs]
  refine .ite (returns_ok _ _) (.ite (returns_ok _ _) (.ite ?_ (returns_ratio₂ ?_)))
  · exact .ite (returns_signed _ _ _ _) (.ratio_bind le_rfl (returns_round le_rfl c _))
  · exact .ite (returns_signed _ _ _ _) (returns_round le_rfl c _)

theorem remainder_of_neg {p v : ℚ} (hp : x.finiteValue? = some p) (hv : y.finiteValue? = some v)
    (hv0 : v ≠ 0) (hneg : p - v * nearestEven (p / v) < 0) :
    GivesUnlessWide F.exponentWidth (.ok (positiveZero F, Flags.nx ∪ Flags.uf))
      (x.remainder c y) := by
  obtain ⟨hx, rfl⟩ := finiteValue?_eq_some_iff.mp hp
  obtain ⟨hy, rfl⟩ := finiteValue?_eq_some_iff.mp hv
  obtain ⟨hxNaN, hxInf⟩ := isFinite_iff.mp hx
  obtain ⟨hyNaN, hyInf⟩ := isFinite_iff.mp hy
  have hyZero : y.isZero = false := by
    rwa [ne_eq, value_eq_zero_iff hy, Bool.not_eq_true] at hv0
  simp only [remainder, hxNaN, hyNaN, hxInf, hyInf, hyZero, Bool.or_self, Bool.false_eq_true,
    if_false]
  refine .ratio_bind le_rfl (.ratio_bind le_rfl (Or.inl ?_))
  rw [if_neg hneg.ne, roundRat_of_neg hs hneg]

omit hs in
theorem returns_fusedNaN (x y z : Pattern F) (infinityTimesZero : Bool) :
    Returns w (fusedNaN x y z infinityTimesZero) := by
  refine .ite ?_ (returns_ok _ _)
  cases F.platform.infinityTimesZeroPlusNaN <;> exact returns_ok _ _

theorem returns_fusedMultiplyAdd (c : Context) (x y z : Pattern F) :
    Returns F.exponentWidth (fusedMultiplyAdd c x y z) := by
  have hxy := mul_nonneg (value_nonneg hs x) (value_nonneg hs y)
  have hz := value_nonneg hs z
  unfold fusedMultiplyAdd
  simp only [sign_eq_positive hs, Sign.mul]
  split_ifs with hnan hinvalid hzero hzInf hproduct
  · exact returns_fusedNaN x y z _
  · exact returns_ok _ _
  · exact returns_signed _ _ _ _
  · exact returns_signed _ _ _ _
  · exact returns_signed _ _ _ _
  · -- A sum of zero has only zeros as terms, and those were settled before.
    simp only [Bool.or_eq_true, not_or, Bool.not_eq_true] at hnan hproduct hzInf
    have hxFinite := isFinite_iff.mpr ⟨hnan.1.1, hproduct.1⟩
    have hyFinite := isFinite_iff.mpr ⟨hnan.1.2, hproduct.2⟩
    have hzFinite := isFinite_iff.mpr ⟨hnan.2, hzInf⟩
    refine returns_ratio₂ (.ratio_bind le_rfl (returns_ofSum fun hsum => hzero ?_))
    have hprod0 : x.value * y.value = 0 := by linarith
    have hz0 : z.value = 0 := by linarith
    rw [mul_eq_zero, value_eq_zero_iff hxFinite, value_eq_zero_iff hyFinite] at hprod0
    rw [value_eq_zero_iff hzFinite] at hz0
    simp [hprod0, hz0]

theorem returns_roundToIntegral (c : Context) (exact : Bool) (x : Pattern F) :
    Returns F.exponentWidth (x.roundToIntegral c exact) := by
  rw [roundToIntegral, sign_eq_positive hs]
  refine .ite (returns_ok _ _) (.ite (returns_signed _ _ _ _) (.ratio_bind le_rfl ?_))
  exact .ite (returns_signed _ _ _ _) ((returns_round le_rfl c _).map _)

omit hs in
theorem roundToInt_nonneg (mode : RoundingMode) (hq : 0 ≤ q) : 0 ≤ (mode.roundToInt q).1 := by
  have hsign : Sign.ofInt q.num = .positive := if_neg (not_lt.mpr (Rat.num_nonneg.mpr hq))
  simp [RoundingMode.roundToInt, Exact.Surd.ofRat, hsign, Sign.applyTo]

theorem returns_awayFromZero (x : Pattern F) : Returns w (quietly x.awayFromZero) := by
  rw [awayFromZero, sign_eq_positive hs]
  split_ifs
  · exact returns_ok _ _
  · exact returns_signed _ _ _ _
  · exact returns_ok _ _

theorem returns_nextUp (x : Pattern F) : Returns w x.nextUp := by
  rw [nextUp, next, sign_eq_positive hs]
  refine .ite (returns_ok _ _) (.ite (.ite (returns_ok _ _) (returns_signed _ _ _ _)) ?_)
  refine .ite (returns_signed _ _ _ _) (.ite (returns_awayFromZero hs x) (returns_ok _ _))

theorem failsWhere_nextDown (x : Pattern F) :
    FailsWhere 0 (x.isZero = true) none x.nextDown := by
  constructor
  case fails =>
    intro hx
    obtain ⟨hnan, hinf⟩ := isFinite_iff.mp (x.classify.isFinite_of_isZero hx)
    simp only [nextDown, next, hnan, hinf, hx, Bool.false_eq_true, if_false, if_true]
    exact Or.inl (quietly_signed_negative hs _ _)
  case returns =>
    intro hx
    rw [nextDown, next, sign_eq_positive hs, if_neg hx]
    refine .ite (returns_ok _ _) (.ite (.ite (returns_ok _ _) (returns_signed _ _ _ _)) ?_)
    exact .ite (returns_awayFromZero hs x) (returns_ok _ _)
  case negative =>
    intro q hq
    cases hq

theorem failsWhere_convert (c : Context) (x : Pattern S) :
    FailsWhere (max S.exponentWidth F.exponentWidth)
      (x.sign = .negative ∧ (x.isInfinity = true ∨ x.isZero = true)) x.finiteValue?
      (convert F c x) := by
  have hround (q : ℚ) : Returns (max S.exponentWidth F.exponentWidth) (F.roundRat c q) :=
    returns_round (le_max_right _ _) c _
  constructor
  case fails =>
    rintro ⟨hsign, hx | hx⟩
    · simp only [convert, isNaN_of_isInfinity hx, hx, hsign, Bool.false_eq_true, if_false, if_true]
      exact Or.inl (quietly_signed_negative hs _ _)
    · obtain ⟨hnan, hinf⟩ := isFinite_iff.mp (x.classify.isFinite_of_isZero hx)
      simp only [convert, hnan, hinf, hx, hsign, Bool.false_eq_true, if_false, if_true]
      exact Or.inl (quietly_signed_negative hs _ _)
  case returns =>
    intro h
    cases hsign : x.sign with
    | positive =>
      rw [convert, hsign]
      refine .ite (returns_ok _ _) (.ite (returns_signed _ _ _ _) ?_)
      exact .ite (returns_signed _ _ _ _) (.ratio_bind (le_max_left _ _) (hround _))
    | negative =>
      obtain ⟨hinf, hzero⟩ := not_or.mp fun hx => h ⟨hsign, hx⟩
      rw [convert, if_neg hinf, if_neg hzero]
      exact .ite (returns_ok _ _) (.ratio_bind (le_max_left _ _) (hround _))
  case negative =>
    intro q hq hneg
    obtain ⟨hx, rfl⟩ := finiteValue?_eq_some_iff.mp hq
    obtain ⟨hnan, hinf⟩ := isFinite_iff.mp hx
    have hzero : x.isZero = false := by
      rw [← Bool.not_eq_true, ← value_eq_zero_iff hx]
      exact hneg.ne
    simp only [convert, hnan, hinf, hzero, Bool.false_eq_true, if_false]
    exact .ratio_bind (le_max_left _ _) (Or.inl (roundRat_of_neg hs hneg))

end

/-- Where the operations in a format without a sign bit fail, and what becomes of their negative
exact results. Infinities and NaNs have no exact value, and neither has a division by zero. -/
structure UnsignedOperations (F : Format) (c : Context) : Prop where
  add : ∀ x y : Pattern F,
    FailsWhere F.exponentWidth False (Option.map₂ (· + ·) x.finiteValue? y.finiteValue?)
      (x.add c y)
  /-- A difference fails if it is negative infinity, or an exact zero that is rounded downward. -/
  sub : ∀ x y : Pattern F,
    FailsWhere F.exponentWidth (x.isFinite = true ∧
        (y.isInfinity = true ∨ x.finiteValue? = y.finiteValue? ∧ c.mode = .towardNegative))
      (Option.map₂ (· - ·) x.finiteValue? y.finiteValue?) (x.sub c y)
  mul : ∀ x y : Pattern F,
    FailsWhere F.exponentWidth False (Option.map₂ (· * ·) x.finiteValue? y.finiteValue?)
      (x.mul c y)
  div : ∀ x y : Pattern F,
    FailsWhere F.exponentWidth False
      (Option.map₂ (· / ·) x.finiteValue? (y.finiteValue?.filter (· ≠ 0))) (x.div c y)
  remainder : ∀ x y : Pattern F,
    FailsWhere F.exponentWidth False
      (Option.map₂ (fun p q => p - q * nearestEven (p / q)) x.finiteValue?
        (y.finiteValue?.filter (· ≠ 0)))
      (x.remainder c y)
  fusedMultiplyAdd : ∀ x y z : Pattern F,
    FailsWhere F.exponentWidth False
      (Option.map₂ (· + ·) (Option.map₂ (· * ·) x.finiteValue? y.finiteValue?) z.finiteValue?)
      (fusedMultiplyAdd c x y z)
  roundToIntegral : ∀ (exact : Bool) (x : Pattern F),
    FailsWhere F.exponentWidth False (x.finiteValue?.map fun q => ((c.mode.roundToInt q).1 : ℚ))
      (x.roundToIntegral c exact)
  nextUp : ∀ x : Pattern F, FailsWhere 0 False none x.nextUp
  /-- Nothing lies below zero. -/
  nextDown : ∀ x : Pattern F, FailsWhere 0 (x.isZero = true) none x.nextDown
  /-- A conversion fails on the negative zero and the negative infinity of the other format. -/
  convert : ∀ {S : Format} (x : Pattern S),
    FailsWhere (max S.exponentWidth F.exponentWidth)
      (x.sign = .negative ∧ (x.isInfinity = true ∨ x.isZero = true)) x.finiteValue?
      (convert F c x)

theorem unsignedOperations (hs : F.signBit = false) (c : Context) : UnsignedOperations F c where
  add x y := by
    refine .never (returns_add hs c x y) fun q hq => ?_
    obtain ⟨p, r, hp, hr, rfl⟩ := Option.map₂_eq_some_iff.mp hq
    exact add_nonneg (finiteValue?_nonneg hs hp) (finiteValue?_nonneg hs hr)
  sub := failsWhere_sub hs c
  mul x y := by
    refine .never (returns_mul hs c x y) fun q hq => ?_
    obtain ⟨p, r, hp, hr, rfl⟩ := Option.map₂_eq_some_iff.mp hq
    exact mul_nonneg (finiteValue?_nonneg hs hp) (finiteValue?_nonneg hs hr)
  div x y := by
    refine .never (returns_div hs c x y) fun q hq => ?_
    obtain ⟨p, r, hp, hr, rfl⟩ := Option.map₂_eq_some_iff.mp hq
    exact div_nonneg (finiteValue?_nonneg hs hp)
      (finiteValue?_nonneg hs (Option.filter_eq_some_iff.mp hr).1)
  remainder x y := by
    refine ⟨False.elim, fun _ => returns_remainder hs c x y, fun q hq hneg => ?_⟩
    obtain ⟨p, r, hp, hr, rfl⟩ := Option.map₂_eq_some_iff.mp hq
    obtain ⟨hr, hr0⟩ := Option.filter_eq_some_iff.mp hr
    exact remainder_of_neg hs hp hr (of_decide_eq_true hr0) hneg
  fusedMultiplyAdd x y z := by
    refine .never (returns_fusedMultiplyAdd hs c x y z) fun q hq => ?_
    obtain ⟨s, t, hs', ht, rfl⟩ := Option.map₂_eq_some_iff.mp hq
    obtain ⟨p, r, hp, hr, rfl⟩ := Option.map₂_eq_some_iff.mp hs'
    exact add_nonneg (mul_nonneg (finiteValue?_nonneg hs hp) (finiteValue?_nonneg hs hr))
      (finiteValue?_nonneg hs ht)
  roundToIntegral exact x := by
    refine .never (returns_roundToIntegral hs c exact x) fun q hq => ?_
    obtain ⟨p, hp, rfl⟩ := Option.map_eq_some_iff.mp hq
    exact_mod_cast roundToInt_nonneg c.mode (finiteValue?_nonneg hs hp)
  nextUp x := .never (returns_nextUp hs x) nofun
  nextDown := failsWhere_nextDown hs
  convert := failsWhere_convert hs c

/-- One minus two, in the fields of half precision. -/
theorem unsignedOperations_one_sub_two :
    let F : Format := { exponentWidth := 5, mantissaWidth := 10, signBit := false }
    F.signBit = false ∧
      (pack F .positive 15 0).sub {} (pack F .positive 16 0) =
        .ok (positiveZero F, Flags.nx ∪ Flags.uf) := by
  intro F
  have hends := ((unsignedOperations (F := F) rfl {}).sub (pack F .positive 15 0)
    (pack F .positive 16 0)).negative (-1) (by decide +kernel) (by norm_num)
  exact ⟨rfl, hends.resolve_right fun h => absurd h.1 (by decide)⟩

/-- The negative zero of half precision has no counterpart without the sign bit. -/
theorem convert_negativeZero_fails :
    ¬∀ (F S : Format) (c : Context) (x : Pattern S), F.signBit = false →
      2 ≤ F.exponentWidth → 2 ≤ F.mantissaWidth → ∃ r, convert F c x = .ok r := by
  intro h
  let F : Format := { exponentWidth := 5, mantissaWidth := 10, signBit := false }
  let S : Format := { exponentWidth := 5, mantissaWidth := 10 }
  have hzero : convert F {} (pack S .negative 0 0) = .error .noSignBit := by decide +kernel
  obtain ⟨r, hr⟩ := h F S {} (pack S .negative 0 0) rfl (by decide) (by decide)
  rw [hzero] at hr
  cases hr

end Pattern
end HartFloat
