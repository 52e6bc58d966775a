import HartFloat.Proofs.Arithmetic.Number

/-!
# Correct arithmetic

Addition, subtraction, multiplication, division and fused multiply-add deliver what exact
arithmetic on the numbers of their operands calls for. The operations first look at the classes of
the operands; each of these short cuts is a case of the exact operation.
-/
namespace HartFloat

open Pattern

/-- The outcome is the pattern and the exceptions that the exact result calls for. -/
def ExactResult.IsOutcome {F : Format} (c : Context) (r : ExactResult)
    (o : Outcome (Pattern F)) : Prop :=
  ∃ y f, o = .ok (y, f) ∧ r.Delivers F c y f

/-- The outcome that an exact result leads to. -/
def ExactResult.outcome (F : Format) (c : Context) : ExactResult → Outcome (Pattern F)
  | invalid => Pattern.invalid F
  | divisionByZero s => .ok (pack F s F.infinityExponent 0, Flags.dz)
  | infinite s => .ok (pack F s F.infinityExponent 0, ∅)
  | zero s => .ok (pack F s 0 0, ∅)
  | value q => F.roundRat c q

namespace ExactResult

variable {F : Format} {c : Context}

theorem isOutcome_outcome (h : F.Regular) (hw : F.exponentWidth ≤ 63) (c : Context)
    (r : ExactResult) : r.IsOutcome c (r.outcome F c) := by
  cases r with
  | invalid =>
    have hclass := classify_canonicalNaN h.two_le_mantissaWidth h.infinityExponent_ne_zero
    exact ⟨_, _, rfl, rfl, hclass, rfl⟩
  | divisionByZero s | infinite s | zero s => exact ⟨_, _, rfl, rfl, rfl⟩
  | value q =>
    refine ⟨_, _, Format.roundRat_eq hw c q, ?_⟩
    rw [Delivers, ← Exact.Surd.toReal_ofRat]
    exact ⟨F.isRounding_rounding h c _, F.raises_rounding h c _⟩

theorem signed_eq (h : F.Regular) (s : Sign) (e m : ℕ) : signed F s e m = .ok (pack F s e m) := by
  rw [signed, if_neg]
  simp [h.signBit]

theorem outcome_invalid : invalid.outcome F c = Pattern.invalid F := rfl

theorem outcome_value (q : ℚ) : (value q).outcome F c = F.roundRat c q := rfl

theorem outcome_zero (h : F.Regular) (s : Sign) :
    (zero s).outcome F c = quietly (Pattern.zero F s) := by
  rw [Pattern.zero, signed_eq h]
  rfl

theorem outcome_infinite (h : F.Regular) (s : Sign) :
    (infinite s).outcome F c = quietly (infinity F s) := by
  rw [infinity, signed_eq h]
  rfl

theorem outcome_divisionByZero (h : F.Regular) (s : Sign) :
    (divisionByZero s).outcome F c = (infinity F s).map (·, Flags.dz) := by
  rw [infinity, signed_eq h]
  rfl

theorem ofSum_eq (h : F.Regular) (q : ℚ) :
    ofSum F c q =
      (if q ≠ 0 then value q
        else zero (if c.mode = .towardNegative then .negative else .positive)).outcome F c := by
  have hsign : c.mode.zeroSumSign = if c.mode = .towardNegative then .negative else .positive := by
    cases c.mode <;> rfl
  rw [ofSum, hsign]
  by_cases hq : q = 0
  · rw [if_pos hq, if_neg (not_not.mpr hq)]
    exact (outcome_zero h _).symm
  · rw [if_neg hq, if_pos hq]
    rfl

end ExactResult

namespace Pattern

open ExactResult

variable {F : Format} {c : Context} {x y z : Pattern F} {a b d : Number} {k : NumberClass} {r : ℚ}

/-- The operations on two operands settle NaNs first, and all in the same way. -/
theorem eq_binaryNaN {op : Context → Pattern F → Pattern F → Outcome (Pattern F)}
    (hop : op ∈ [add, sub, mul, div, remainder]) (h : x.isNaN = true ∨ y.isNaN = true)
    (c : Context) : op c x y = binaryNaN x y := by
  have hnan : (x.isNaN || y.isNaN) = true := by simpa using h
  have hsum : (x.classify.isNaN || y.classify.isNaN) = true := hnan
  simp only [List.mem_cons, List.not_mem_nil, or_false] at hop
  rcases hop with rfl | rfl | rfl | rfl | rfl
  · rw [add, addTerm, if_pos hsum]
  · rw [sub, addTerm, if_pos (by rwa [NumberClass.isNaN_neg])]
  · rw [mul, if_pos hnan]
  · rw [div, if_pos hnan]
  · rw [remainder, if_pos hnan]

theorem addTerm_finite {yRatio : Except Violation ℚ} {s t : Sign} {p q : ℚ}
    (hx : (Number.finite s p).IsGivenBy x.classify x.value)
    (hb : (Number.finite t q).IsGivenBy k r) :
    addTerm c x y k yRatio =
      if p = 0 ∧ q = 0 ∧ s = t then quietly (zero F s)
      else x.ratio.bind fun a => yRatio.bind fun b => ofSum F c (a + b) := by
  have hxInf := hx.isInfinity_finite
  have hbInf := hb.isInfinity_finite
  have hxPos := hx.eq_zero_iff .positive
  have hbPos := hb.eq_zero_iff .positive
  have hxNeg := hx.eq_zero_iff .negative
  have hbNeg := hb.eq_zero_iff .negative
  simp only [NumberClass.isInfinity, Bool.or_eq_false_iff, beq_eq_false_iff_ne] at hxInf hbInf
  simp only [NumberClass.withSign, NumberClass.neg] at hxPos hbPos hxNeg hbNeg
  unfold addTerm
  simp only [hx.isNaN, hb.isNaN, NumberClass.isInfinity, Bool.or_eq_true, Bool.and_eq_true,
    beq_iff_eq, hxInf, hbInf, hxPos, hbPos, hxNeg, hbNeg, Bool.false_eq_true, or_self, false_and,
    if_false]
  cases s <;> cases t <;> simp

theorem finiteSum_eq (h : F.Regular) (s t : Sign) (p q : ℚ) :
    (if p = 0 ∧ q = 0 ∧ s = t then quietly (zero F s) else ofSum F c (p + q)) =
      ((Number.finite s p).add c.mode (.finite t q)).outcome F c := by
  by_cases hzero : p = 0 ∧ q = 0 ∧ s = t
  · obtain ⟨rfl, rfl, rfl⟩ := hzero
    simpa [Number.add] using (outcome_zero h s).symm
  · have hadd : (Number.finite s p).add c.mode (.finite t q) =
        if p + q ≠ 0 then ExactResult.value (p + q)
        else ExactResult.zero (if c.mode = .towardNegative then .negative else .positive) := by
      by_cases hpq : p + q = 0
      · have hcommon : ¬(p = 0 ∧ s = t) := by
          rintro ⟨rfl, hst⟩
          exact hzero ⟨rfl, by simpa using hpq, hst⟩
        simp [Number.add, hpq, hcommon]
      · simp [Number.add, hpq]
    rw [if_neg hzero, hadd]
    exact ofSum_eq h _

theorem addTerm_eq (h : F.Regular) (hw : F.exponentWidth ≤ 63)
    (ha : a.IsGivenBy x.classify x.value) (hb : b.IsGivenBy k r) :
    addTerm c x y k (.ok r) = (a.add c.mode b).outcome F c := by
  cases a with
  | infinite s =>
    rw [Number.IsGivenBy] at ha
    cases b with
    | infinite t =>
      rw [Number.IsGivenBy] at hb
      unfold addTerm
      rw [ha, hb]
      cases s <;> cases t
      · exact (outcome_infinite h .positive).symm
      · rfl
      · rfl
      · exact (outcome_infinite h .negative).symm
    | finite t q =>
      rw [Number.add, outcome_infinite h, addTerm, ha]
      obtain ⟨-, ⟨-, rfl⟩ | ⟨-, rfl | rfl⟩⟩ := hb <;> cases s <;> cases t <;> rfl
  | finite s p =>
    cases b with
    | infinite t =>
      rw [Number.IsGivenBy] at hb
      subst hb
      rw [Number.add, outcome_infinite h, addTerm]
      obtain ⟨-, ⟨-, ha⟩ | ⟨-, ha | ha⟩⟩ := ha <;> rw [ha] <;> cases s <;> cases t <;> rfl
    | finite t q =>
      rw [addTerm_finite ha hb, ratio_eq hw, ha.1, hb.1]
      exact finiteSum_eq h s t p q

section

variable (h : F.Regular) (hi : F.implicitLeadingBit = true) (hw : F.exponentWidth ≤ 63)
  (hx : x.number? = some a) (hy : y.number? = some b) (hz : z.number? = some d)

include h hi

include hw hx hy in
theorem add_eq : x.add c y = (a.add c.mode b).outcome F c := by
  rw [add, ratio_eq hw]
  exact addTerm_eq h hw (isGivenBy_classify hi h hx) (isGivenBy_classify hi h hy)

include hw hx hy in
theorem sub_eq : x.sub c y = (a.sub c.mode b).outcome F c := by
  rw [sub, ratio_eq hw]
  exact addTerm_eq h hw (isGivenBy_classify hi h hx) (isGivenBy_classify hi h hy).neg

include hx in
theorem isNaN_of_number? : x.isNaN = false := (isGivenBy_classify hi h hx).isNaN

theorem number?_infinite {s : Sign} (hx : x.number? = some (.infinite s)) :
    x.isInfinity = true ∧ x.isZero = false ∧ x.sign = s := by
  have hclass := isGivenBy_classify hi h hx
  rw [Number.IsGivenBy] at hclass
  refine ⟨?_, ?_, (number?_eq_infinite hx).2.2⟩ <;>
    simp only [isInfinity, isZero, hclass] <;> cases s <;> rfl

theorem number?_finite {s : Sign} {q : ℚ} (hx : x.number? = some (.finite s q)) :
    x.isInfinity = false ∧ x.isZero = decide (q = 0) ∧ x.sign = s ∧ x.value = q := by
  have hclass := isGivenBy_classify hi h hx
  refine ⟨hclass.isInfinity_finite, ?_, (number?_eq_finite hx).2.1, hclass.1⟩
  have hpos := hclass.eq_zero_iff .positive
  have hneg := hclass.eq_zero_iff .negative
  simp only [NumberClass.withSign, NumberClass.neg] at hpos hneg
  rw [isZero, NumberClass.isZero, Bool.eq_iff_iff]
  cases s <;> simp [hpos, hneg]

include hx hy in
theorem product?_cases :
    a.product? b = none ∧ (x.isInfinity && y.isZero || x.isZero && y.isInfinity) = true ∨
    a.product? b = some (.infinite (x.sign.mul y.sign)) ∧
      (x.isInfinity && y.isZero || x.isZero && y.isInfinity) = false ∧
      (x.isInfinity || y.isInfinity) = true ∧ (x.isZero || y.isZero) = false ∨
    a.product? b = some (.finite (x.sign.mul y.sign) (x.value * y.value)) ∧
      x.isInfinity = false ∧ y.isInfinity = false ∧
      (x.isZero || y.isZero) = decide (x.value * y.value = 0) := by
  cases a with
  | infinite s =>
    obtain ⟨hxInf, hxZero, rfl⟩ := number?_infinite h hi hx
    cases b with
    | infinite t =>
      obtain ⟨hyInf, hyZero, rfl⟩ := number?_infinite h hi hy
      simp [Number.product?, hxInf, hxZero, hyInf, hyZero]
    | finite t q =>
      obtain ⟨hyInf, hyZero, rfl, -⟩ := number?_finite h hi hy
      by_cases hq : q = 0 <;> simp [Number.product?, hxInf, hxZero, hyInf, hyZero, hq]
  | finite s p =>
    obtain ⟨hxInf, hxZero, rfl, hp⟩ := number?_finite h hi hx
    cases b with
    | infinite t =>
      obtain ⟨hyInf, hyZero, rfl⟩ := number?_infinite h hi hy
      by_cases hpZero : p = 0 <;> simp [Number.product?, hxInf, hxZero, hyInf, hyZero, hpZero]
    | finite t q =>
      obtain ⟨hyInf, hyZero, rfl, hq⟩ := number?_finite h hi hy
      simp [Number.product?, hxInf, hxZero, hyInf, hyZero, hp, hq]

include hw hx hy in
theorem mul_eq : x.mul c y = (a.mul b).outcome F c := by
  unfold mul Number.mul
  rw [isNaN_of_number? h hi hx, isNaN_of_number? h hi hy, ratio_eq hw, ratio_eq hw]
  rcases product?_cases h hi hx hy with ⟨hp, hinvalid⟩ | ⟨hp, hinvalid, hinf, hzero⟩ |
    ⟨hp, hxInf, hyInf, hzero⟩
  · simp only [hp, hinvalid, if_true]
    rfl
  · simp only [hp, hinvalid, hinf, hzero, if_true, Bool.false_eq_true, if_false, Bool.or_self]
    exact (outcome_infinite h _).symm
  · simp only [hp, hxInf, hyInf, hzero, Bool.false_and, Bool.and_false, Bool.or_self,
      Bool.false_eq_true, if_false, decide_eq_true_eq]
    split_ifs
    · exact (outcome_zero h _).symm
    · rfl

include hw hx hy in
theorem div_eq : x.div c y = (a.div b).outcome F c := by
  unfold div
  rw [isNaN_of_number? h hi hx, isNaN_of_number? h hi hy, ratio_eq hw, ratio_eq hw]
  cases a with
  | infinite s =>
    obtain ⟨hxInf, hxZero, rfl⟩ := number?_infinite h hi hx
    cases b with
    | infinite t =>
      obtain ⟨hyInf, hyZero, rfl⟩ := number?_infinite h hi hy
      simp [Number.div, hxInf, hxZero, hyInf, hyZero, outcome_invalid]
    | finite t q =>
      obtain ⟨hyInf, hyZero, rfl, -⟩ := number?_finite h hi hy
      simpa [Number.div, hxInf, hxZero, hyInf, hyZero] using (outcome_infinite h _).symm
  | finite s p =>
    obtain ⟨hxInf, hxZero, rfl, hp⟩ := number?_finite h hi hx
    cases b with
    | infinite t =>
      obtain ⟨hyInf, hyZero, rfl⟩ := number?_infinite h hi hy
      simpa [Number.div, hxInf, hxZero, hyInf, hyZero] using (outcome_zero h _).symm
    | finite t q =>
      obtain ⟨hyInf, hyZero, rfl, hq⟩ := number?_finite h hi hy
      by_cases hpZero : p = 0
      · by_cases hqZero : q = 0
        · simp [Number.div, hxInf, hxZero, hyInf, hyZero, hpZero, hqZero, outcome_invalid]
        · simpa [Number.div, hxInf, hxZero, hyInf, hyZero, hpZero, hqZero] using
            (outcome_zero h _).symm
      · by_cases hqZero : q = 0
        · simpa [Number.div, hxInf, hxZero, hyInf, hyZero, hpZero, hqZero] using
            (outcome_divisionByZero h _).symm
        · simp [Number.div, hxInf, hxZero, hyInf, hyZero, hpZero, hqZero, hp, hq, outcome_value,
            Except.bind]

include hw hx hy hz in
theorem fusedMultiplyAdd_eq :
    fusedMultiplyAdd c x y z = (a.fusedMultiplyAdd c.mode b d).outcome F c := by
  unfold fusedMultiplyAdd Number.fusedMultiplyAdd
  rw [isNaN_of_number? h hi hx, isNaN_of_number? h hi hy, isNaN_of_number? h hi hz, ratio_eq hw,
    ratio_eq hw, ratio_eq hw]
  rcases product?_cases h hi hx hy with ⟨hp, hinvalid⟩ | ⟨hp, hinvalid, hinf, hzero⟩ |
    ⟨hp, hxInf, hyInf, hzero⟩
  · simp only [hp, hinvalid, Bool.true_or, if_true]
    rfl
  · simp only [hp, hinvalid, hinf, hzero, Bool.false_or, Bool.true_and, Bool.false_and]
    cases d with
    | infinite u =>
      obtain ⟨hzInf, -, rfl⟩ := number?_infinite h hi hz
      by_cases hs : x.sign.mul y.sign = z.sign
      · simpa [Number.add, hzInf, hs] using (outcome_infinite h _).symm
      · simp [Number.add, hzInf, hs, outcome_invalid]
    | finite u q =>
      obtain ⟨hzInf, -, -, -⟩ := number?_finite h hi hz
      simpa [Number.add, hzInf] using (outcome_infinite h _).symm
  · simp only [hp, hxInf, hyInf, hzero, Bool.false_and, Bool.and_false, Bool.or_self]
    cases d with
    | infinite u =>
      obtain ⟨hzInf, hzZero, rfl⟩ := number?_infinite h hi hz
      simpa [Number.add, hzInf, hzZero] using (outcome_infinite h _).symm
    | finite u q =>
      obtain ⟨hzInf, hzZero, rfl, hq⟩ := number?_finite h hi hz
      rw [hzInf, hzZero, hq]
      simpa [and_assoc, Except.bind] using
        finiteSum_eq h (x.sign.mul y.sign) z.sign (x.value * y.value) q

end

end Pattern

namespace Environment

/-- The operation, run in the environment, ends with the pattern that the exact result calls for
and adds the exceptions that it calls for. -/
def Computes {F : Format} (env : Environment) (mode? : Option RoundingMode)
    (op : Context → Outcome (Pattern F)) (r : RoundingMode → ExactResult) : Prop :=
  ∃ y f, env.run mode? op = .ok (y, env.raise f) ∧
    (r (mode?.getD env.mode)).Delivers F (env.toContext.override mode?) y f

theorem Computes.of_eq {F : Format} {env : Environment} {mode? : Option RoundingMode}
    {op : Context → Outcome (Pattern F)} {r : RoundingMode → ExactResult} (h : F.Regular)
    (hw : F.exponentWidth ≤ 63) (hop : ∀ c, op c = (r c.mode).outcome F c) :
    env.Computes mode? op r := by
  obtain ⟨y, f, hy, hr⟩ := (r (mode?.getD env.mode)).isOutcome_outcome h hw
    (env.toContext.override mode?)
  refine ⟨y, f, ?_, hr⟩
  rw [run, hop]
  exact congrArg (Except.map _) hy

/-- The five operations on patterns compute those on numbers. -/
structure ComputesArithmetic {F : Format} (env : Environment) (mode? : Option RoundingMode)
    (x y z : Pattern F) (a b d : Number) : Prop where
  add : env.Computes mode? (fun c => x.add c y) fun mode => a.add mode b
  sub : env.Computes mode? (fun c => x.sub c y) fun mode => a.sub mode b
  mul : env.Computes mode? (fun c => x.mul c y) fun _ => a.mul b
  div : env.Computes mode? (fun c => x.div c y) fun _ => a.div b
  fusedMultiplyAdd : env.Computes mode? (fun c => x.fusedMultiplyAdd c y z) fun mode =>
    a.fusedMultiplyAdd mode b d

/-- Where the exponents fit, the operations deliver the exact results on operands other than NaNs,
rounded once. -/
theorem run_computesArithmetic {F : Format} (h : F.Regular) (hi : F.implicitLeadingBit = true)
    (hw : F.exponentWidth ≤ 63) (env : Environment) (mode? : Option RoundingMode)
    {x y z : Pattern F} (hx : x.isNaN = false) (hy : y.isNaN = false) (hz : z.isNaN = false) :
    ∃ a b d, x.number? = some a ∧ y.number? = some b ∧ z.number? = some d ∧
      env.ComputesArithmetic mode? x y z a b d := by
  obtain ⟨a, ha⟩ := exists_number?_of_not_isNaN h hx
  obtain ⟨b, hb⟩ := exists_number?_of_not_isNaN h hy
  obtain ⟨d, hd⟩ := exists_number?_of_not_isNaN h hz
  exact ⟨a, b, d, ha, hb, hd,
    { add := .of_eq h hw fun c => add_eq h hi hw ha hb
      sub := .of_eq h hw fun c => sub_eq h hi hw ha hb
      mul := .of_eq h hw fun c => mul_eq h hi hw ha hb
      div := .of_eq h hw fun c => div_eq h hi hw ha hb
      fusedMultiplyAdd := .of_eq h hw fun c => fusedMultiplyAdd_eq h hi hw ha hb hd }⟩

/-- With 64 bits of exponent, one plus one has no result. -/
theorem one_add_one_may_fail :
    ¬∀ F : Format, F.Regular → F.implicitLeadingBit = true → ∀ (env : Environment)
      (mode? : Option RoundingMode) (x y z : Pattern F), x.isNaN = false → y.isNaN = false →
        z.isNaN = false → ∃ a b d, x.number? = some a ∧ y.number? = some b ∧
          z.number? = some d ∧ env.ComputesArithmetic mode? x y z a b d := by
  intro h
  let one := pack .wide .positive Format.wide.bias 0
  have hone : one.isNaN = false := by decide +kernel
  have hadd : (default : Environment).run none (fun c => one.add c one) =
      .error .exponentTooWide := by
    decide +kernel
  obtain ⟨a, b, d, -, -, -, hcomputes⟩ :=
    h .wide Format.regular_wide rfl default none one one one hone hone hone
  obtain ⟨y, f, hrun, -⟩ := hcomputes.add
  rw [hadd] at hrun
  cases hrun

/-- One, negative zero and infinity in single precision. -/
theorem run_computesArithmetic_one_zero_infinity :
    Format.binary32.Regular ∧ ∃ a b d,
      (pack .binary32 .positive 127 0).number? = some a ∧
      (pack .binary32 .negative 0 0).number? = some b ∧
      (pack .binary32 .positive 255 0).number? = some d ∧
      (default : Environment).ComputesArithmetic none (pack .binary32 .positive 127 0)
        (pack .binary32 .negative 0 0) (pack .binary32 .positive 255 0) a b d :=
  ⟨Format.regular_binary32, run_computesArithmetic Format.regular_binary32 rfl (by decide) default
    none (by decide +kernel) (by decide +kernel) (by decide +kernel)⟩

end Environment
end HartFloat
