import HartFloat.Proofs.Pattern.Fields
import HartFloat.Pattern.Round

/-!
# Formats whose exponents fit

Exponents are computed in signed 64-bit integers. With at most 63 bits of exponent they all fit, so
that every finite pattern has its value at hand and every exact value is rounded. With more, the
largest exponent of a normal number does not fit, and no value is rounded whose exponent matters;
from 65 bits on the bias does not fit either, and no pattern has its value at hand.
-/
namespace HartFloat

theorem demandExponent_eq_ok_iff {e : ℕ} : demandExponent e = .ok () ↔ e < 2 ^ 63 := by
  unfold demandExponent
  split_ifs with h
  · exact iff_of_true rfl h
  · exact iff_of_false (fun he => by cases he) h

theorem demandExponent_eq_error_iff {e : ℕ} {v : Violation} :
    demandExponent e = .error v ↔ 2 ^ 63 ≤ e ∧ v = .exponentTooWide := by
  unfold demandExponent
  split_ifs with h
  · exact iff_of_false (fun he => by cases he) fun he => absurd h he.1.not_gt
  · constructor
    · intro hv
      cases hv
      exact ⟨not_lt.mp h, rfl⟩
    · rintro ⟨-, rfl⟩
      rfl

namespace Format

variable {F : Format} {c : Context} {v : Exact.Surd}

theorem bias_lt_iff : F.bias < 2 ^ 63 ↔ F.exponentWidth ≤ 64 := by
  have hpos := Nat.two_pow_pos (F.exponentWidth - 1)
  have hpow : F.bias < 2 ^ 63 ↔ 2 ^ (F.exponentWidth - 1) ≤ 2 ^ 63 := by
    unfold bias
    omega
  rw [hpow, Nat.pow_le_pow_iff_right Nat.one_lt_two]
  omega

theorem infinityExponent_lt_iff : F.infinityExponent < 2 ^ 63 ↔ F.exponentWidth ≤ 63 := by
  have hpos := Nat.two_pow_pos F.exponentWidth
  have hpow : F.infinityExponent < 2 ^ 63 ↔ 2 ^ F.exponentWidth ≤ 2 ^ 63 := by
    unfold infinityExponent
    omega
  rw [hpow, Nat.pow_le_pow_iff_right Nat.one_lt_two]

theorem maxNormalExponent_lt_iff : F.maxNormalExponent < 2 ^ 63 ↔ F.exponentWidth ≤ 63 := by
  constructor
  · intro h
    by_contra hw
    have hpow : 2 ^ 64 ≤ 2 ^ F.exponentWidth := Nat.pow_le_pow_right two_pos (by omega)
    unfold maxNormalExponent infinityExponent at h
    omega
  · intro hw
    have hinf := infinityExponent_lt_iff.mpr hw
    unfold maxNormalExponent
    omega

theorem demandLimits_eq_ok (hw : F.exponentWidth ≤ 63) : F.demandLimits = .ok () := by
  have hbias : demandExponent F.bias = .ok () :=
    demandExponent_eq_ok_iff.mpr (bias_lt_iff.mpr (by omega))
  rw [demandLimits, hbias]
  exact demandExponent_eq_ok_iff.mpr (maxNormalExponent_lt_iff.mpr hw)

theorem demandLimits_eq_error (hw : 64 ≤ F.exponentWidth) :
    F.demandLimits = .error .exponentTooWide := by
  have hmax : demandExponent F.maxNormalExponent = .error .exponentTooWide := by
    refine demandExponent_eq_error_iff.mpr ⟨not_lt.mp fun h => ?_, rfl⟩
    have := maxNormalExponent_lt_iff.mp h
    omega
  unfold demandLimits
  cases hbias : demandExponent F.bias with
  | error v => rw [(demandExponent_eq_error_iff.mp hbias).2]; rfl
  | ok u => exact hmax

theorem round_eq (hw : F.exponentWidth ≤ 63) (c : Context) (v : Exact.Surd) :
    F.round c v = .ok (F.rounding c v) := by
  rw [round, demandLimits_eq_ok hw]
  exact ite_self _

theorem roundRat_eq (hw : F.exponentWidth ≤ 63) (c : Context) (q : ℚ) :
    F.roundRat c q = .ok (F.roundingRat c q) :=
  round_eq hw c _

theorem round_eq_error (hw : 64 ≤ F.exponentWidth) (hv : F.looksAtExponent v = true)
    (c : Context) : F.round c v = .error .exponentTooWide := by
  rw [round, if_pos hv, demandLimits_eq_error hw]
  rfl

theorem round_eq_ok_iff {r : Pattern F × Flags} :
    F.round c v = .ok r ↔
      F.rounding c v = r ∧ (F.exponentWidth ≤ 63 ∨ F.looksAtExponent v = false) := by
  by_cases hw : F.exponentWidth ≤ 63
  · simp [round_eq hw, hw]
  · cases hv : F.looksAtExponent v with
    | false => simp [round, hv]
    | true => simp [round_eq_error (not_le.mp hw) hv, hw]

theorem round_cases (F : Format) (c : Context) (v : Exact.Surd) :
    F.round c v = .ok (F.rounding c v) ∨
      64 ≤ F.exponentWidth ∧ F.round c v = .error .exponentTooWide := by
  by_cases hw : F.exponentWidth ≤ 63
  · exact Or.inl (round_eq hw c v)
  · cases hv : F.looksAtExponent v with
    | false => exact Or.inl (by rw [round, if_neg (ne_true_of_eq_false hv)])
    | true => exact Or.inr ⟨not_le.mp hw, round_eq_error (not_le.mp hw) hv c⟩

theorem looksAtExponent_eq_false_iff (hs : F.signBit = true) :
    F.looksAtExponent v = false ↔ v.toReal = 0 := by
  simp [looksAtExponent, hs, v.toReal_eq_zero_iff]

/-- The format with the least fields whose largest exponent does not fit. -/
def wide : Format := { exponentWidth := 64, mantissaWidth := 2 }

theorem regular_wide : wide.Regular := ⟨rfl, by decide, by decide⟩

theorem round_wide (hv : v.toReal ≠ 0) (c : Context) :
    wide.round c v = .error .exponentTooWide := by
  refine round_eq_error (by decide) ?_ c
  rwa [← Bool.not_eq_false, looksAtExponent_eq_false_iff rfl]

end Format

namespace Pattern

variable {F : Format} {x : Pattern F}

/-- The exponent field and the bias fit, so that the value can be computed. -/
def ExponentsFit (x : Pattern F) : Prop := x.exponent < 2 ^ 63 ∧ F.exponentWidth ≤ 64

instance : Decidable x.ExponentsFit := inferInstanceAs (Decidable (_ ∧ _))

theorem exponentsFit (hw : F.exponentWidth ≤ 63) (x : Pattern F) : x.ExponentsFit := by
  refine ⟨lt_of_le_of_lt ?_ (Format.infinityExponent_lt_iff.mpr hw), by omega⟩
  exact Format.lt_two_pow_iff.mp (Nat.mod_lt _ (Nat.two_pow_pos _))

theorem ratio_eq_of_fits (hx : x.ExponentsFit) : x.ratio = .ok x.value := by
  have hbias : demandExponent F.bias = .ok () :=
    demandExponent_eq_ok_iff.mpr (Format.bias_lt_iff.mpr hx.2)
  rw [ratio, demandExponent_eq_ok_iff.mpr hx.1, hbias]
  rfl

theorem ratio_eq (hw : F.exponentWidth ≤ 63) (x : Pattern F) : x.ratio = .ok x.value :=
  ratio_eq_of_fits (exponentsFit hw x)

theorem ratio_eq_error (hx : ¬x.ExponentsFit) : x.ratio = .error .exponentTooWide := by
  unfold ratio
  cases hexp : demandExponent x.exponent with
  | error v =>
    rw [(demandExponent_eq_error_iff.mp hexp).2]
    rfl
  | ok u =>
    have hwide : ¬F.exponentWidth ≤ 64 := fun hw => hx ⟨demandExponent_eq_ok_iff.mp hexp, hw⟩
    have hbias : demandExponent F.bias = .error .exponentTooWide :=
      demandExponent_eq_error_iff.mpr ⟨not_lt.mp (Format.bias_lt_iff.not.mpr hwide), rfl⟩
    rw [hbias]
    rfl

theorem ratio_cases (x : Pattern F) :
    x.ratio = .ok x.value ∨ 64 ≤ F.exponentWidth ∧ x.ratio = .error .exponentTooWide := by
  by_cases hx : x.ExponentsFit
  · exact Or.inl (ratio_eq_of_fits hx)
  · exact Or.inr ⟨not_le.mp fun hw => hx (exponentsFit hw x), ratio_eq_error hx⟩

theorem ratio_neg_bind {α : Type} (f : ℚ → Outcome α) :
    (x.ratio.map (-·)).bind f = x.ratio.bind fun q => f (-q) := by
  cases x.ratio <;> rfl

/-- The exact value, whether or not the exponents fit; infinities and NaNs have none. -/
def finiteValue? (x : Pattern F) : Option ℚ := if x.isFinite then some x.value else none

theorem value?_eq (hw : F.exponentWidth ≤ 63) (x : Pattern F) : x.value? = .ok x.finiteValue? := by
  rw [value?, finiteValue?, ratio_eq hw]
  split_ifs
  · rfl
  · rfl

theorem value?_eq_ok_some_iff {q : ℚ} :
    x.value? = .ok (some q) ↔ x.ExponentsFit ∧ x.isFinite = true ∧ x.value = q := by
  by_cases hfinite : x.isFinite = true
  · by_cases hx : x.ExponentsFit
    · simp [value?, ratio_eq_of_fits hx, hfinite, hx, Except.map]
    · simp [value?, ratio_eq_error hx, hfinite, hx, Except.map]
  · simp [value?, hfinite]

end Pattern
end HartFloat
