import HartFloat.Proofs.Arithmetic.Unsigned
import HartFloat.Proofs.Backend.Accumulation
import HartFloat.Proofs.Rounding.Accuracy
import HartFloat.Proofs.Word.Fields

/-!
# The square root iteration on numbers

A step of the iteration divides, adds and halves words. As long as nothing overflows or is lost to
underflow it does to the numbers that the words stand for what one function on real numbers does:
the quotient and the sum are rounded, and the half is exact. What that function keeps from step to
step therefore holds where the iteration ends, and no exception but inexact is raised on the way.
-/
namespace HartFloat.Backend.Soft

open Format (binary32)
open Pattern

variable {a b g r : ℝ} {s w x : Word}

/-- The word stands for the number, which is positive. -/
def Holds (w : Word) (r : ℝ) : Prop :=
  ∃ q : ℚ, (ofWord w).number? = some (.finite .positive q) ∧ (q : ℝ) = r ∧ 0 < q

/-- Whatever was collected before, the computed word satisfies the predicate, and no exception but
inexact is added. -/
def Yields (run : StateM Flags Word) (p : Word → Prop) : Prop :=
  ∀ f, p (run f).1 ∧ ((run f).2 = f ∨ (run f).2 = f ∪ Flags.nx)

theorem yields_pure {p : Word → Prop} (hw : p w) : Yields (pure w) p := fun _ => ⟨hw, Or.inl rfl⟩

theorem Yields.mono {run : StateM Flags Word} {p q : Word → Prop} (h : Yields run p)
    (hpq : ∀ w, p w → q w) : Yields run q := fun f => ⟨hpq _ (h f).1, (h f).2⟩

theorem Yields.bind {run : StateM Flags Word} {next : Word → StateM Flags Word}
    {p q : Word → Prop} (hrun : Yields run p) (hnext : ∀ w, p w → Yields (next w) q) :
    Yields (run >>= next) q := fun f => by
  obtain ⟨hp, hf⟩ := hrun f
  obtain ⟨hq, hf'⟩ := hnext _ hp (run f).2
  refine ⟨hq, ?_⟩
  change (next (run f).1 (run f).2).2 = f ∨ (next (run f).1 (run f).2).2 = f ∪ Flags.nx
  rcases hf with hf | hf <;> rcases hf' with hf' | hf' <;> rw [hf', hf]
  · exact Or.inl rfl
  · exact Or.inr rfl
  · exact Or.inr rfl
  · rw [Flags.union_assoc, Flags.union_self]
    exact Or.inr rfl

theorem Holds.pos (h : Holds w r) : 0 < r := by
  obtain ⟨q, -, rfl, hq⟩ := h
  exact_mod_cast hq

theorem Holds.mem (h : Holds w r) : r ∈ binary32.finiteValues := by
  obtain ⟨q, hq, rfl, -⟩ := h
  obtain ⟨hfinite, -, hvalue⟩ := number?_eq_finite hq
  exact ⟨_, hfinite, by rw [hvalue]⟩

theorem value?_eq_ok_some_iff {v : ℚ} :
    (ofWord w).value? = .ok (some v) ↔ (ofWord w).isFinite = true ∧ (ofWord w).value = v := by
  rw [value?_eq (by decide), Except.ok.injEq, finiteValue?_eq_some_iff]

theorem holds_of_value? {v : ℚ} (hv : (ofWord w).value? = .ok (some v)) (hpos : 0 < v) :
    Holds w v := by
  obtain ⟨hfinite, hvalue⟩ := value?_eq_ok_some_iff.mp hv
  obtain ⟨hnan, hinf⟩ := isFinite_iff.mp hfinite
  obtain ⟨a, ha⟩ := exists_number?_of_not_isNaN Format.regular_binary32 hnan
  cases a with
  | infinite s =>
    rw [(number?_infinite Format.regular_binary32 rfl ha).1] at hinf
    cases hinf
  | finite s q =>
    obtain ⟨-, -, -, hq⟩ := number?_finite Format.regular_binary32 rfl ha
    obtain rfl : v = q := hvalue.symm.trans hq
    rcases number?_cases ha with h | ⟨p, hp, h⟩
    · cases h
    · obtain ⟨rfl, hq⟩ := Number.finite.inj h
      cases hs : (ofWord w).sign with
      | positive => exact ⟨v, by rw [ha, hs], rfl, hpos⟩
      | negative =>
        rw [hs, Sign.factor] at hq
        push_cast at hq
        linarith

theorem Holds.value? (h : Holds w r) :
    ∃ q : ℚ, (ofWord w).value? = .ok (some q) ∧ (q : ℝ) = r := by
  obtain ⟨q, hq, hr, -⟩ := h
  obtain ⟨hinf, -, -, hvalue⟩ := number?_finite Format.regular_binary32 rfl hq
  refine ⟨q, value?_eq_ok_some_iff.mpr ⟨isFinite_iff.mpr ⟨?_, hinf⟩, hvalue⟩, hr⟩
  exact Pattern.isNaN_of_number? Format.regular_binary32 rfl hq

theorem Holds.classify_eq (h : Holds w r) (hr : 2 ^ binary32.minExponent ≤ r) :
    (ofWord w).classify = .positiveNormal := by
  obtain ⟨q, hq, rfl, hpos⟩ := h
  obtain ⟨hfinite, hsign, hvalue⟩ := number?_eq_finite hq
  have hexponent : (ofWord w).exponent ≠ 0 := by
    intro he
    have hlt := abs_fieldValue_lt rfl he
    rw [hvalue, abs_of_pos (by exact_mod_cast hpos)] at hlt
    exact absurd hr (not_le.mpr hlt)
  rw [classify, magnitudeClass_of_finite rfl hfinite, if_neg hexponent, hsign]
  rfl

/-- The number is positive, below the threshold of overflow, and not tiny unless it is a value. -/
structure InReach (r : ℝ) : Prop where
  pos : 0 < r
  lt_threshold : r < binary32.overflowThreshold
  normal_or_mem : 2 ^ binary32.minExponent ≤ r ∨ r ∈ binary32.finiteValues

theorem InReach.toNearest_pos (h : InReach r) : 0 < binary32.toNearest r := by
  rcases h.normal_or_mem with hnormal | hmem
  · have hpow := Format.two_zpow_mem_finiteValues Format.regular_binary32 le_rfl
      Format.regular_binary32.minExponent_le_maxExponent
    exact lt_of_lt_of_le (by positivity) (Format.le_toNearest Format.regular_binary32 hpow hnormal)
  · rw [Format.toNearest_eq Format.regular_binary32 hmem]
    exact h.pos

theorem inReach_of_mem (hpos : 0 < r) (hmem : r ∈ binary32.finiteValues) : InReach r where
  pos := hpos
  lt_threshold := (le_abs_self r).trans_lt <|
    (Format.abs_le_largest Format.regular_binary32 hmem).trans_lt
      Format.largest_lt_overflowThreshold
  normal_or_mem := Or.inr hmem

theorem yields_binary {op : Context → Single → Single → Outcome Single} {q : ℚ} {u v : Word}
    (hop : op nearest (ofWord u) (ofWord v) = binary32.roundRat nearest q)
    (hq : InReach q) : Yields (binary op u v) (Holds · (binary32.toNearest q)) := by
  have hpos : 0 < q := by exact_mod_cast hq.pos
  have hresult := hq.toNearest_pos
  obtain ⟨p, hp, hvalue⟩ :=
    Format.number?_roundingRat (c := nearest) Format.regular_binary32 rfl hq.lt_threshold hpos
  have hflags := Format.flags_roundingRat (c := nearest) Format.regular_binary32 rfl hq.lt_threshold
    rfl hpos hq.normal_or_mem
  rw [Format.roundRat_eq (by decide)] at hop
  rcases hround : binary32.roundingRat nearest q with ⟨y, g⟩
  rw [hround] at hop hp hflags
  intro f
  rw [binary_eq_collect hop]
  refine ⟨⟨p, hp, hvalue, by rw [← hvalue] at hresult; exact_mod_cast hresult⟩, ?_⟩
  change f ∪ g = f ∨ f ∪ g = f ∪ Flags.nx
  rcases hflags with rfl | rfl
  · exact Or.inl (Flags.union_empty f)
  · exact Or.inr rfl

section

variable (hu : Holds w a) (hv : Holds x b)

include hu hv

theorem yields_div (hq : InReach (a / b)) :
    Yields (primitives.div w x) (Holds · (binary32.toNearest (a / b))) := by
  obtain ⟨p, hp, rfl, hpos⟩ := hu
  obtain ⟨q, hq', rfl, hpos'⟩ := hv
  rw [← Rat.cast_div] at hq ⊢
  refine yields_binary ?_ hq
  rw [div_eq Format.regular_binary32 rfl (by decide) hp hq']
  simp [Number.div, hpos.ne', hpos'.ne', ExactResult.outcome_value]

theorem yields_add (hsum : InReach (a + b)) :
    Yields (primitives.add w x) (Holds · (binary32.toNearest (a + b))) := by
  obtain ⟨p, hp, rfl, hpos⟩ := hu
  obtain ⟨q, hq, rfl, hpos'⟩ := hv
  rw [← Rat.cast_add] at hsum ⊢
  refine yields_binary ?_ hsum
  rw [add_eq Format.regular_binary32 rfl (by decide) hp hq]
  simp [Number.add, (add_pos hpos hpos').ne', ExactResult.outcome_value]

theorem yields_mul (hproduct : InReach (a * b)) :
    Yields (primitives.mul w x) (Holds · (binary32.toNearest (a * b))) := by
  obtain ⟨p, hp, rfl, hpos⟩ := hu
  obtain ⟨q, hq, rfl, hpos'⟩ := hv
  rw [← Rat.cast_mul] at hproduct ⊢
  refine yields_binary ?_ hproduct
  rw [mul_eq Format.regular_binary32 rfl (by decide) hp hq]
  simp [Number.mul, Number.product?, hpos.ne', hpos'.ne', ExactResult.outcome_value]

end

theorem holds_half : Holds Primitives.half (1 / 2) := by
  refine ⟨1 / 2, ?_, by norm_num, by norm_num⟩
  have hfinite : (ofWord Primitives.half).HasFiniteFields := by decide
  have hsign : (ofWord Primitives.half).sign = .positive := by decide
  have hvalue : (ofWord Primitives.half).fieldValue = 1 / 2 := by decide +kernel
  rw [number?, if_pos hfinite, hsign, hvalue]

/-- One step on numbers: the mean of a guess and the quotient by it, where the quotient and the sum
are rounded. -/
noncomputable def refined (a g : ℝ) : ℝ :=
  binary32.toNearest (g + binary32.toNearest (a / g)) / (2 : ℕ)

theorem refined_eq (a g : ℝ) :
    refined a g = binary32.toNearest (g + binary32.toNearest (a / g)) / 2 := by
  rw [refined, Nat.cast_two]

/-- Nothing stands in the way of the step on numbers. -/
structure Proceeds (a g : ℝ) : Prop where
  quotient : InReach (a / g)
  sum : InReach (g + binary32.toNearest (a / g))
  mem : refined a g ∈ binary32.finiteValues

theorem Proceeds.refined_pos (h : Proceeds a g) : 0 < refined a g := by
  rw [refined_eq]
  exact half_pos h.sum.toNearest_pos

theorem yields_refineRoot (hx : Holds x a) (hg : Holds w g) (h : Proceeds a g) :
    Yields (primitives.refineRoot x w) (Holds · (refined a g)) := by
  refine (yields_div hx hg h.quotient).bind fun q hq => (yields_add hg hq h.sum).bind fun s hs => ?_
  have hhalf : binary32.toNearest (g + binary32.toNearest (a / g)) * (1 / 2) = refined a g := by
    rw [refined_eq, mul_one_div]
  have hmul := yields_mul hs holds_half (by rw [hhalf]; exact inReach_of_mem h.refined_pos h.mem)
  rwa [hhalf, Format.toNearest_eq Format.regular_binary32 h.mem] at hmul

theorem yields_iterateRoot (inv : ℕ → ℝ → Prop) (hx : Holds x a)
    (hstep : ∀ n g, inv (n + 1) g → Proceeds a g ∧ inv n (refined a g)) {n : ℕ}
    (hg : Holds w g) (hinv : inv n g) :
    Yields (primitives.iterateRoot x n w) fun w => ∃ r, Holds w r ∧ inv 0 r := by
  -- The guess changes with every step, so that the induction is for any word that holds one.
  induction n generalizing w g with
  | zero => exact yields_pure ⟨g, hg, hinv⟩
  | succ n ih =>
    obtain ⟨hproceeds, hnext⟩ := hstep n g hinv
    exact (yields_refineRoot hx hg hproceeds).bind fun w hw => ih hw hnext

theorem sqrtApprox_eq (hx : Holds x a) :
    primitives.sqrtApprox x = primitives.iterateRoot x Primitives.rootSteps x := by
  obtain ⟨q, hq, -, hpos⟩ := hx
  obtain ⟨-, hzero, hsign, -⟩ := number?_finite Format.regular_binary32 rfl hq
  have hnan := Pattern.isNaN_of_number? Format.regular_binary32 rfl hq
  rw [isNaN_ofWord] at hnan
  rw [isZero_ofWord, decide_eq_false hpos.ne'] at hzero
  have hnegative : x.isNegative = false := by
    rw [sign_ofWord] at hsign
    cases hx : x.isNegative with
    | false => rfl
    | true =>
      rw [hx] at hsign
      cases hsign
  simp [Primitives.sqrtApprox, hzero, hnan, hnegative]

theorem yields_sqrtApprox (inv : ℕ → ℝ → Prop) (hx : Holds x a)
    (hstep : ∀ n g, inv (n + 1) g → Proceeds a g ∧ inv n (refined a g))
    (hinv : inv Primitives.rootSteps a) :
    Yields (primitives.sqrtApprox x) fun w => ∃ r, Holds w r ∧ inv 0 r := by
  rw [sqrtApprox_eq hx]
  exact yields_iterateRoot inv hx hstep hx hinv

end HartFloat.Backend.Soft
