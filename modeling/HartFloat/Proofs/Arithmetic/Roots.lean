import HartFloat.Pattern.Roots
import HartFloat.Proofs.Rounding.Roots

/-!
# Correct square roots

The square root and its inverse deliver what the exact operation on the number of their operand
calls for. In the interchange formats of up to 128 bits the root of a positive number is neither too
large nor too small to be normal, so that nothing but inexact is raised, and inexact only where the
square of the result is not the number under the root.
-/
namespace HartFloat

open Pattern

/-- A square root before it is rounded: the number under it, if that is positive, or else a
result that is not rounded. -/
inductive ExactRoot
  | result (r : ExactResult)
  | root (q : ℚ)

namespace Number

def sqrt : Number → ExactRoot
  | infinite .positive => .result (.infinite .positive)
  | infinite .negative => .result .invalid
  | finite s q =>
    if q = 0 then .result (.zero s) else if q < 0 then .result .invalid else .root q

def rsqrt : Number → ExactRoot
  | infinite .positive => .result (.zero .positive)
  | infinite .negative => .result .invalid
  | finite s q =>
    if q = 0 then .result (.divisionByZero s) else if q < 0 then .result .invalid else .root q⁻¹

end Number

structure Format.IsRoot (F : Format) (c : Context) (q : ℚ) (y : Pattern F) (f : Flags) : Prop where
  rounding : F.IsRounding c.mode √(q : ℝ) y
  squares : F.RoundsRoot c.mode q y
  flags : f = if y.fieldValue ^ 2 = q then ∅ else Flags.nx

namespace ExactRoot

def Delivers (F : Format) (c : Context) (y : Pattern F) (f : Flags) : ExactRoot → Prop
  | result r => r.Delivers F c y f
  | root q => F.IsRoot c q y f

def outcome (F : Format) (c : Context) : ExactRoot → Outcome (Pattern F)
  | result r => r.outcome F c
  | root q => roundRoot F c q

end ExactRoot

namespace Format

variable {F : Format} {c : Context} {q : ℚ}

theorem toReal_root_ofRat (hq : 0 < q) :
    (⟨(Exact.Surd.ofRat q).sign, (Exact.Surd.ofRat q).magnitude.root 2 Nat.two_pos⟩ :
      Exact.Surd).toReal = √(q : ℝ) := by
  have hvalue := Exact.Surd.toReal_ofRat q
  have hsign : (Exact.Surd.ofRat q).sign = .positive := if_neg (Rat.num_pos.mpr hq).not_gt
  rw [Exact.Surd.toReal, hsign, Sign.factor, Int.cast_one, one_mul] at hvalue ⊢
  rw [Exact.Magnitude.toReal_root_two, hvalue]

section

variable (h : F.Regular) (hwide : F.fractionWidth + 1 < F.bias) (hq : F.IsRadicand q)

include h hwide hq

theorem isRoot_rounding {v : Exact.Surd} (hv : v.toReal = √(q : ℝ)) :
    F.IsRoot c q (F.rounding c v).1 (F.rounding c v).2 := by
  have hrange := hq.inNormalRange_sqrt h hwide
  have hpos := Real.sqrt_pos.mpr hq.pos
  have hzero : v.isZero = false := v.isZero_eq_false_iff.mpr (hv ▸ hpos.ne')
  obtain ⟨hfinite, hvalue⟩ := fieldValue_rounding_of_not_overflows h hzero
    (hv ▸ hrange.not_overflows c.mode)
  have hround := isRounding_rounding h c v
  have hraises := raises_rounding h c v
  rw [hv] at hvalue hround hraises
  have hnonneg := fieldValue_nonneg (hround.sign_of_pos hpos)
  have hexact : (F.rounding c v).2.inexact = true ↔ (F.rounding c v).1.fieldValue ^ 2 ≠ q := by
    rw [hraises.inexact, extended?_ne_iff hfinite, not_iff_not, eq_comm,
      Real.sqrt_eq_iff_mul_self_eq hq.pos.le hnonneg, ← pow_two, eq_comm]
    norm_cast
  refine ⟨hround, roundsRoot h (by exact_mod_cast hnonneg) hq hrange hfinite hvalue, ?_⟩
  rw [hrange.flags_eq hraises, Flags.when]
  split_ifs with hinexact hsquare hsquare
  · exact absurd hsquare (hexact.mp hinexact)
  · rfl
  · rfl
  · exact absurd (hexact.mpr hsquare) hinexact

theorem exists_roundRoot (hw : F.exponentWidth ≤ 63) :
    ∃ y f, roundRoot F c q = .ok (y, f) ∧ F.IsRoot c q y f :=
  ⟨_, _, round_eq hw c _, isRoot_rounding h hwide hq (toReal_root_ofRat (by exact_mod_cast hq.pos))⟩

end

end Format

namespace Pattern

open ExactResult

variable {F : Format} {c : Context} {x : Pattern F} {a : Number}

theorem sign_eq_negative_iff (hne : x.fieldValue ≠ 0) : x.sign = .negative ↔ x.fieldValue < 0 := by
  constructor
  · intro hs
    exact lt_of_le_of_ne (by exact_mod_cast Format.fieldValue_nonpos hs) hne
  · intro hneg
    cases hs : x.sign with
    | negative => rfl
    | positive => exact absurd hneg (not_lt.mpr (by exact_mod_cast Format.fieldValue_nonneg hs))

theorem isRadicand_fieldValue (hx : x.HasFiniteFields) (hpos : 0 < x.fieldValue) :
    F.IsRadicand x.fieldValue ∧ F.IsRadicand (x.fieldValue⁻¹ : ℚ) := by
  have hreal : (0 : ℝ) < x.fieldValue := by exact_mod_cast hpos
  have hmem : (x.fieldValue : ℝ) ∈ F.finiteValues := ⟨x, hx, rfl⟩
  rw [Rat.cast_inv]
  exact ⟨⟨hreal, .inl hmem⟩, ⟨inv_pos.mpr hreal, .inr (by rwa [inv_inv])⟩⟩

variable (h : F.Regular) (hi : F.implicitLeadingBit = true)

include h hi

section

variable {α : Type} (nan zero infinite negative root : α)

theorem ite_infinite {s : Sign} (hx : x.number? = some (.infinite s)) :
    (if x.isNaN then nan else if x.isZero then zero
      else if x.classify == .positiveInfinity then infinite
      else if x.sign = .negative then negative else root) =
    if s = .positive then infinite else negative := by
  obtain ⟨-, hzero, hs⟩ := number?_infinite h hi hx
  have hclass : x.classify = NumberClass.positiveInfinity.withSign s := isGivenBy_classify hi h hx
  rw [isNaN_of_number? h hi hx, hzero, hclass, hs]
  cases s <;> rfl

theorem ite_finite {s : Sign} {q : ℚ} (hx : x.number? = some (.finite s q)) :
    (if x.isNaN then nan else if x.isZero then zero
      else if x.classify == .positiveInfinity then infinite
      else if x.sign = .negative then negative else root) =
    if q = 0 then zero else if q < 0 then negative else root := by
  obtain ⟨hinf, hzero, -, -⟩ := number?_finite h hi hx
  obtain ⟨-, -, rfl⟩ := number?_eq_finite hx
  have hne : (x.classify == .positiveInfinity) = false := by
    rw [isInfinity, NumberClass.isInfinity, Bool.or_eq_false_iff] at hinf
    exact hinf.2
  rw [isNaN_of_number? h hi hx, hzero, hne]
  by_cases hq : x.fieldValue = 0
  · simp [hq]
  · simp [hq, sign_eq_negative_iff hq]

end

theorem sqrt_eq (hw : F.exponentWidth ≤ 63) (hx : x.number? = some a) :
    x.sqrt c = a.sqrt.outcome F c := by
  cases a with
  | infinite s =>
    rw [sqrt, ite_infinite h hi _ _ _ _ _ hx]
    cases s
    · exact (outcome_infinite (c := c) h _).symm
    · rfl
  | finite s q =>
    obtain ⟨-, -, hs, hvalue⟩ := number?_finite h hi hx
    rw [sqrt, ite_finite h hi _ _ _ _ _ hx, Number.sqrt, hs, ratio_eq hw, hvalue]
    split_ifs
    · exact (outcome_zero (c := c) h _).symm
    · rfl
    · rfl

theorem rsqrt_eq (hw : F.exponentWidth ≤ 63) (hx : x.number? = some a) :
    x.rsqrt c = a.rsqrt.outcome F c := by
  cases a with
  | infinite s =>
    rw [rsqrt, ite_infinite h hi _ _ _ _ _ hx]
    cases s <;> rfl
  | finite s q =>
    obtain ⟨-, -, hs, hvalue⟩ := number?_finite h hi hx
    rw [rsqrt, ite_finite h hi _ _ _ _ _ hx, Number.rsqrt, hs, ratio_eq hw, hvalue]
    split_ifs
    · exact (outcome_divisionByZero (c := c) h _).symm
    · rfl
    · rfl

end Pattern

namespace ExactRoot

variable {F : Format} {c : Context} {x : Pattern F} {a : Number} (h : F.Regular)
  (hw : F.exponentWidth ≤ 63) (hwide : F.fractionWidth + 1 < F.bias)

include h hw

theorem result_delivers (c : Context) (r : ExactResult) :
    ∃ y f, (result r).outcome F c = .ok (y, f) ∧ (result r).Delivers F c y f :=
  r.isOutcome_outcome h hw c

include hwide

theorem root_delivers (c : Context) {q : ℚ} (hq : F.IsRadicand q) :
    ∃ y f, (root q).outcome F c = .ok (y, f) ∧ (root q).Delivers F c y f :=
  Format.exists_roundRoot h hwide hq hw

theorem sqrt_delivers (c : Context) (hx : x.number? = some a) :
    ∃ y f, a.sqrt.outcome F c = .ok (y, f) ∧ a.sqrt.Delivers F c y f := by
  cases a with
  | infinite s => cases s <;> exact result_delivers h hw c _
  | finite s q =>
    obtain ⟨hfinite, -, rfl⟩ := number?_eq_finite hx
    rw [Number.sqrt]
    split_ifs with hzero hneg
    · exact result_delivers h hw c _
    · exact result_delivers h hw c _
    · have hpos := lt_of_le_of_ne' (not_lt.mp hneg) hzero
      exact root_delivers h hw hwide c (isRadicand_fieldValue hfinite hpos).1

theorem rsqrt_delivers (c : Context) (hx : x.number? = some a) :
    ∃ y f, a.rsqrt.outcome F c = .ok (y, f) ∧ a.rsqrt.Delivers F c y f := by
  cases a with
  | infinite s => cases s <;> exact result_delivers h hw c _
  | finite s q =>
    obtain ⟨hfinite, -, rfl⟩ := number?_eq_finite hx
    rw [Number.rsqrt]
    split_ifs with hzero hneg
    · exact result_delivers h hw c _
    · exact result_delivers h hw c _
    · have hpos := lt_of_le_of_ne' (not_lt.mp hneg) hzero
      exact root_delivers h hw hwide c (isRadicand_fieldValue hfinite hpos).2

end ExactRoot

/-- The interchange formats of up to 128 bits have the features that the proofs rely on. -/
theorem Format.regular_of_interchange? {width : ℕ} {platform : Platform} {F : Format}
    (hwidth : width ∈ [16, 32, 64, 128]) (hF : interchange? width platform = some F) :
    F.Regular ∧ F.implicitLeadingBit = true ∧ F.exponentWidth ≤ 63 ∧
      F.fractionWidth + 1 < F.bias := by
  simp only [List.mem_cons, List.not_mem_nil, or_false] at hwidth
  rcases hwidth with rfl | rfl | rfl | rfl <;> cases hF <;>
    exact ⟨⟨rfl, by simp, by simp⟩, rfl, by simp, by simp [fractionWidth, bias]⟩

namespace Environment

def ComputesRoot {F : Format} (env : Environment) (mode? : Option RoundingMode)
    (op : Context → Outcome (Pattern F)) (r : ExactRoot) : Prop :=
  ∃ y f, env.run mode? op = .ok (y, env.raise f) ∧
    r.Delivers F (env.toContext.override mode?) y f

theorem ComputesRoot.of_eq {F : Format} {env : Environment} {mode? : Option RoundingMode}
    {op : Context → Outcome (Pattern F)} {r : ExactRoot} (hop : ∀ c, op c = r.outcome F c)
    (hr : ∀ c, ∃ y f, r.outcome F c = .ok (y, f) ∧ r.Delivers F c y f) :
    env.ComputesRoot mode? op r := by
  obtain ⟨y, f, hy, hdelivers⟩ := hr (env.toContext.override mode?)
  refine ⟨y, f, ?_, hdelivers⟩
  rw [run, hop, hy]
  rfl

/-- The two operations on a pattern compute those on its number. -/
structure ComputesRoots {F : Format} (env : Environment) (mode? : Option RoundingMode)
    (x : Pattern F) (a : Number) : Prop where
  sqrt : env.ComputesRoot mode? (fun c => x.sqrt c) a.sqrt
  rsqrt : env.ComputesRoot mode? (fun c => x.rsqrt c) a.rsqrt

/-- In the interchange formats of up to 128 bits the square root of a pattern other than a NaN and
the inverse of the root are the exact ones, rounded once, and nothing but inexact is raised where a
root is rounded. -/
theorem run_computesRoots {width : ℕ} {platform : Platform} {F : Format}
    (hwidth : width ∈ [16, 32, 64, 128]) (hF : Format.interchange? width platform = some F)
    (env : Environment) (mode? : Option RoundingMode) {x : Pattern F} (hx : x.isNaN = false) :
    ∃ a, x.number? = some a ∧ env.ComputesRoots mode? x a := by
  obtain ⟨h, hi, hw, hwide⟩ := Format.regular_of_interchange? hwidth hF
  obtain ⟨a, ha⟩ := exists_number?_of_not_isNaN h hx
  exact ⟨a, ha,
    { sqrt := .of_eq (fun _ => sqrt_eq h hi hw ha) fun c =>
        ExactRoot.sqrt_delivers h hw hwide c ha
      rsqrt := .of_eq (fun _ => rsqrt_eq h hi hw ha) fun c =>
        ExactRoot.rsqrt_delivers h hw hwide c ha }⟩

/-- The least subnormal half-precision number. -/
theorem run_computesRoots_half :
    ∃ F : Format, Format.interchange? 16 = some F ∧ 16 ∈ [16, 32, 64, 128] ∧
      (pack F .positive 0 1).isNaN = false ∧
      ∃ a, (pack F .positive 0 1).number? = some a ∧
        (default : Environment).ComputesRoots (some .towardZero) (pack F .positive 0 1) a := by
  let F : Format := { exponentWidth := 5, mantissaWidth := 10 }
  have hF : Format.interchange? 16 = some F := rfl
  have hx : (pack F .positive 0 1).isNaN = false := by decide +kernel
  exact ⟨F, hF, by decide, hx, run_computesRoots (by decide) hF default (some .towardZero) hx⟩

end Environment
end HartFloat
