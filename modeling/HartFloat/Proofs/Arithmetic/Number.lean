import HartFloat.Proofs.Rounding.Exceptions

/-!
# Exact arithmetic on numbers

What the standard prescribes for an operation is stated on numbers: rational values, whose zeros
have a sign, and signed infinities. An exact result is rounded if it is a nonzero value and
delivered as it is otherwise. A pattern stands for a number by its fields, and its class and value
agree with that number.
-/
namespace HartFloat

/-- What a pattern other than a NaN stands for. The sign of a finite number is that of its zeros
too. -/
inductive Number
  | finite (s : Sign) (q : ℚ)
  | infinite (s : Sign)

/-- The result of an operation before it is rounded. -/
inductive ExactResult
  | invalid
  | divisionByZero (s : Sign)
  | infinite (s : Sign)
  | zero (s : Sign)
  | value (q : ℚ)

namespace Number

def neg : Number → Number
  | finite s q => finite s.flip (-q)
  | infinite s => infinite s.flip

/-- The product, which a zero and an infinity do not have. -/
def product? : Number → Number → Option Number
  | finite s p, finite t q => some (finite (s.mul t) (p * q))
  | infinite s, infinite t => some (infinite (s.mul t))
  | finite s q, infinite t | infinite s, finite t q =>
    if q = 0 then none else some (infinite (s.mul t))

/-- The sum. That of two zeros of one sign keeps the sign; every other exact zero is positive
unless rounding is downward. -/
def add (mode : RoundingMode) : Number → Number → ExactResult
  | finite s p, finite t q =>
    if p + q ≠ 0 then .value (p + q)
    else if p = 0 ∧ s = t then .zero s
    else .zero (if mode = .towardNegative then .negative else .positive)
  | infinite s, infinite t => if s = t then .infinite s else .invalid
  | infinite s, finite _ _ | finite _ _, infinite s => .infinite s

def sub (mode : RoundingMode) (a b : Number) : ExactResult := a.add mode b.neg

def mul (a b : Number) : ExactResult :=
  match a.product? b with
  | none => .invalid
  | some (infinite s) => .infinite s
  | some (finite s q) => if q = 0 then .zero s else .value q

/-- The quotient. A finite number other than zero has no exact one by zero. -/
def div : Number → Number → ExactResult
  | finite s p, finite t q =>
    if p = 0 ∧ q = 0 then .invalid
    else if q = 0 then .divisionByZero (s.mul t)
    else if p = 0 then .zero (s.mul t)
    else .value (p / q)
  | infinite _, infinite _ => .invalid
  | infinite s, finite t _ => .infinite (s.mul t)
  | finite s _, infinite t => .zero (s.mul t)

def fusedMultiplyAdd (mode : RoundingMode) (a b d : Number) : ExactResult :=
  match a.product? b with
  | none => .invalid
  | some p => p.add mode d

end Number

/-- The pattern and the exceptions are those that the exact result calls for. -/
def ExactResult.Delivers (F : Format) (c : Context) (y : Pattern F) (f : Flags) :
    ExactResult → Prop
  | invalid => y = Pattern.canonicalNaN F ∧ y.classify = .quietNaN ∧ f = Flags.nv
  | divisionByZero s => y = Pattern.pack F s F.infinityExponent 0 ∧ f = Flags.dz
  | infinite s => y = Pattern.pack F s F.infinityExponent 0 ∧ f = ∅
  | zero s => y = Pattern.pack F s 0 0 ∧ f = ∅
  | value q => F.IsRounding c.mode q y ∧ F.Raises c q y f

namespace Pattern

variable {F : Format} {x : Pattern F}

/-- The number that the fields of a pattern stand for, which NaNs do not have. -/
def number? (x : Pattern F) : Option Number :=
  if x.HasFiniteFields then some (.finite x.sign x.fieldValue)
  else if x.mantissa = 0 then some (.infinite x.sign)
  else none

theorem number?_eq_finite {s : Sign} {q : ℚ} (h : x.number? = some (.finite s q)) :
    x.HasFiniteFields ∧ x.sign = s ∧ x.fieldValue = q := by
  unfold number? at h
  split_ifs at h with hf
  · simpa [hf] using h
  · simp at h

theorem number?_eq_infinite {s : Sign} (h : x.number? = some (.infinite s)) :
    x.exponent = F.infinityExponent ∧ x.mantissa = 0 ∧ x.sign = s := by
  unfold number? at h
  split_ifs at h with hf hm
  · simp at h
  · exact ⟨not_not.mp hf, hm, by simpa using h⟩

theorem number?_cases {a : Number} (h : x.number? = some a) :
    a = .infinite x.sign ∨ ∃ q : ℚ, 0 ≤ q ∧ a = .finite x.sign (x.sign.factor * q) := by
  cases a with
  | infinite s =>
    obtain ⟨-, -, rfl⟩ := number?_eq_infinite h
    exact Or.inl rfl
  | finite s q =>
    obtain ⟨-, rfl, rfl⟩ := number?_eq_finite h
    refine Or.inr ⟨_, ?_, congrArg _ (mul_assoc _ _ _)⟩
    positivity

theorem exists_number?_of_not_isNaN (h : F.Regular) (hx : x.isNaN = false) :
    ∃ a, x.number? = some a := by
  by_cases hf : x.HasFiniteFields
  · exact ⟨_, if_pos hf⟩
  by_cases hm : x.mantissa = 0
  · exact ⟨_, (if_neg hf).trans (if_pos hm)⟩
  · have hexp : x.exponent = F.infinityExponent := not_not.mp hf
    have hclass : x.magnitudeClass = .quietNaN ∨ x.magnitudeClass = .signalingNaN := by
      unfold magnitudeClass
      rw [if_neg (hexp ▸ h.infinityExponent_ne_zero), if_pos hexp, if_neg hm]
      split_ifs
      · exact Or.inl rfl
      · exact Or.inr rfl
    have hnan : x.isNaN = true := by
      rw [isNaN, classify]
      rcases hclass with hclass | hclass <;> rw [hclass] <;> cases x.sign <;> rfl
    rw [hnan] at hx
    cases hx

theorem binaryRat_eq (n e : ℤ) : binaryRat n e = n * 2 ^ e := by
  unfold binaryRat
  split_ifs with he
  · obtain ⟨k, rfl⟩ := Int.eq_ofNat_of_zero_le he
    simp
  · obtain ⟨k, hk⟩ := Int.eq_ofNat_of_zero_le (by omega : 0 ≤ -e)
    obtain rfl : e = -k := by omega
    simp [Rat.mkRat_eq_div, div_eq_mul_inv]

theorem fieldValue_eq_zero_iff : x.fieldValue = 0 ↔ x.fieldSignificand = 0 := by
  have hfactor : (x.sign.factor : ℚ) ≠ 0 := Int.cast_ne_zero.mpr x.sign.factor_ne_zero
  have hpow : (2 : ℚ) ^ ((max x.exponent 1 : ℤ) - F.bias - F.fractionWidth) ≠ 0 :=
    zpow_ne_zero _ two_ne_zero
  rw [fieldValue, mul_eq_zero, or_iff_left hpow, mul_eq_zero, or_iff_right hfactor,
    Nat.cast_eq_zero]

end Pattern

namespace Number

/-- The class and the value are those of a pattern that stands for the number. An infinity has no
particular value. -/
def IsGivenBy : Number → NumberClass → ℚ → Prop
  | infinite s, k, _ => k = NumberClass.positiveInfinity.withSign s
  | finite s q, k, r =>
    r = q ∧ ((q = 0 ∧ k = NumberClass.positiveZero.withSign s) ∨
      (q ≠ 0 ∧ (k = NumberClass.positiveSubnormal.withSign s ∨
        k = NumberClass.positiveNormal.withSign s)))

section

variable {s : Sign} {q r : ℚ} {k : NumberClass}

theorem IsGivenBy.isNaN {a : Number} (h : a.IsGivenBy k r) : k.isNaN = false := by
  cases a with
  | infinite s =>
    rw [IsGivenBy] at h
    subst h
    cases s <;> rfl
  | finite s q => obtain ⟨-, ⟨-, rfl⟩ | ⟨-, rfl | rfl⟩⟩ := h <;> cases s <;> rfl

theorem IsGivenBy.isInfinity_finite (h : (finite s q).IsGivenBy k r) : k.isInfinity = false := by
  obtain ⟨-, ⟨-, rfl⟩ | ⟨-, rfl | rfl⟩⟩ := h <;> cases s <;> rfl

theorem IsGivenBy.eq_zero_iff (h : (finite s q).IsGivenBy k r) (t : Sign) :
    k = NumberClass.positiveZero.withSign t ↔ q = 0 ∧ s = t := by
  obtain ⟨-, ⟨hq, rfl⟩ | ⟨hq, rfl | rfl⟩⟩ := h <;> cases s <;> cases t <;>
    simp [hq, NumberClass.withSign, NumberClass.neg]

end

theorem IsGivenBy.neg {a : Number} {k : NumberClass} {r : ℚ} (h : a.IsGivenBy k r) :
    a.neg.IsGivenBy k.neg (-r) := by
  cases a with
  | infinite s =>
    rw [IsGivenBy] at h
    subst h
    cases s <;> rfl
  | finite s q =>
    obtain ⟨rfl, ⟨hq, rfl⟩ | ⟨hq, rfl | rfl⟩⟩ := h
    · exact ⟨rfl, Or.inl ⟨neg_eq_zero.mpr hq, by cases s <;> rfl⟩⟩
    · exact ⟨rfl, Or.inr ⟨neg_ne_zero.mpr hq, Or.inl (by cases s <;> rfl)⟩⟩
    · exact ⟨rfl, Or.inr ⟨neg_ne_zero.mpr hq, Or.inr (by cases s <;> rfl)⟩⟩

end Number

namespace Pattern

variable {F : Format} {x : Pattern F}

section

variable (hi : F.implicitLeadingBit = true)

include hi

theorem fieldSignificand_eq_zero_iff :
    x.fieldSignificand = 0 ↔ x.exponent = 0 ∧ x.mantissa = 0 := by
  have hu := F.unit_pos
  unfold fieldSignificand
  by_cases he : x.exponent = 0
  · simp [he]
  · simp [he, hi]
    omega

theorem magnitudeClass_of_finite (hx : x.HasFiniteFields) :
    x.magnitudeClass =
      if x.exponent = 0 then
        if x.mantissa = 0 then .positiveZero else .positiveSubnormal
      else .positiveNormal := by
  unfold magnitudeClass
  rw [if_neg (show ¬x.exponent = F.infinityExponent from hx), if_pos hi]

theorem isSubnormalOrZero_classify (hx : x.HasFiniteFields) :
    x.classify.isSubnormalOrZero = decide (x.exponent = 0) := by
  rw [classify, magnitudeClass_of_finite hi hx]
  split_ifs with he hm <;> cases x.sign <;> simp [he] <;> rfl

theorem value_eq_fieldValue (hx : x.HasFiniteFields) : x.value = x.fieldValue := by
  have hclass := isSubnormalOrZero_classify hi hx
  have hsig : x.significand = x.fieldSignificand := by
    simp [significand, fieldSignificand, hclass]
  have hexp : (x.effectiveExponent : ℤ) = max (x.exponent : ℤ) 1 := by
    unfold effectiveExponent
    rw [hclass]
    by_cases he : x.exponent = 0
    · simp [he]
    · simp [he]
      omega
  rw [value, binaryRat_eq, Sign.applyTo_eq, hsig, hexp, fieldValue]
  push_cast
  rfl

theorem isGivenBy_classify (h : F.Regular) {a : Number} (hx : x.number? = some a) :
    a.IsGivenBy x.classify x.value := by
  cases a with
  | infinite s =>
    obtain ⟨he, hm, rfl⟩ := number?_eq_infinite hx
    simp [Number.IsGivenBy, classify, magnitudeClass, he, hm, h.infinityExponent_ne_zero]
  | finite s q =>
    obtain ⟨hf, rfl, rfl⟩ := number?_eq_finite hx
    refine ⟨value_eq_fieldValue hi hf, ?_⟩
    rw [ne_eq, fieldValue_eq_zero_iff, fieldSignificand_eq_zero_iff hi, classify,
      magnitudeClass_of_finite hi hf]
    by_cases he : x.exponent = 0
    · by_cases hm : x.mantissa = 0 <;> simp [he, hm]
    · simp [he]

end

theorem two_mul_msb (hm : 2 ≤ F.mantissaWidth) :
    2 * F.msb = 2 ^ F.mantissaWidth ∧ 2 ≤ F.msb := by
  obtain ⟨n, hn⟩ := Nat.exists_eq_add_of_le hm
  have hpos := Nat.two_pow_pos n
  unfold Format.msb Format.msbShift
  rw [hn, show 2 + n - 1 = n + 1 by omega, show 2 + n = n + 1 + 1 by omega]
  simp only [Nat.pow_succ]
  omega

theorem classify_canonicalNaN (hm : 2 ≤ F.mantissaWidth) (he : F.infinityExponent ≠ 0) :
    (canonicalNaN F).classify = .quietNaN := by
  obtain ⟨htwo, hmsb⟩ := two_mul_msb hm
  have hquiet : (canonicalNaN F).mantissa ≠ 0 ∧
      F.quietNaNFormat.isQuiet (canonicalNaN F).msb = true := by
    unfold canonicalNaN msb
    rw [mantissa_pack]
    cases F.quietNaNFormat with
    | standard =>
      dsimp only
      rw [Nat.mod_eq_of_lt (by omega), Nat.div_self (by omega)]
      exact ⟨by omega, rfl⟩
    | mipsLegacy =>
      have hlt : F.maxMantissa - F.msb < F.msb := by
        unfold Format.maxMantissa
        omega
      dsimp only
      rw [Nat.mod_eq_of_lt (by omega), Nat.div_eq_of_lt hlt]
      refine ⟨?_, rfl⟩
      unfold Format.maxMantissa
      omega
  have hclass : (canonicalNaN F).magnitudeClass = .quietNaN := by
    unfold magnitudeClass
    rw [show (canonicalNaN F).exponent = F.infinityExponent from exponent_pack_infinity _ _,
      if_neg he, if_pos rfl, if_neg hquiet.1, if_pos hquiet.2]
  rw [classify, hclass]
  cases (canonicalNaN F).sign <;> rfl

end Pattern
end HartFloat
