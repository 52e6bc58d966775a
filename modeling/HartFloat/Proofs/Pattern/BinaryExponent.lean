import HartFloat.Proofs.Environment.Steps
import HartFloat.Proofs.Neighbour.Next
import HartFloat.Proofs.Neighbour.Normalization

/-!
# Binary exponents

The binary exponent of a number is the floor of the binary logarithm of its magnitude. It is found
by a search for the leading bit: the significand is shifted up, and one taken off the exponent for
each place, until a bit stands before the binary point. In a normal number with an implied leading
bit it stands there from the start. The search ends for every significand but zero, and zeros are
turned away before it, as infinities and NaNs are.
-/
namespace HartFloat

namespace Format

/-- The exponent at which the search for the leading bit arrives from a significand and the exponent
that belongs to its place before the binary point. -/
inductive Leads (F : Format) : ℕ → ℤ → ℤ → Prop
  | found {n k} (hn : F.unit ≤ n) : Leads F n k k
  | shift {n k k'} (hn : n < F.unit) (hnext : Leads F (2 * n) (k - 1) k') : Leads F n k k'

variable {F : Format} {n : ℕ} {k k' k'' : ℤ}

theorem two_mul_mul_two_zpow (F : Format) (n : ℕ) (k : ℤ) :
    ((2 * n : ℕ) : ℚ) * 2 ^ (k - 1 - F.fractionWidth) = n * 2 ^ (k - F.fractionWidth) := by
  rw [sub_right_comm, zpow_sub_one₀ two_ne_zero]
  push_cast
  ring

theorem unit_mul_two_zpow (F : Format) (k : ℤ) :
    (F.unit : ℚ) * 2 ^ (k - F.fractionWidth) = 2 ^ k := by
  rw [unit, Nat.cast_pow, Nat.cast_ofNat, ← zpow_natCast, ← zpow_add₀ two_ne_zero]
  congr 1
  ring

namespace Leads

theorem unique (h : F.Leads n k k') (h' : F.Leads n k k'') : k' = k'' := by
  induction h with
  | found hn =>
    cases h' with
    | found => rfl
    | shift hn' => omega
  | shift hn _ ih =>
    cases h' with
    | found hn' => omega
    | shift _ hnext' => exact ih hnext'

theorem ne_zero (h : F.Leads n k k') : n ≠ 0 := by
  induction h with
  | found hn => exact (F.unit_pos.trans_le hn).ne'
  | shift _ _ ih =>
    intro hn
    exact ih (by simp [hn])

theorem two_zpow_le (h : F.Leads n k k') : (2 : ℚ) ^ k' ≤ n * 2 ^ (k - F.fractionWidth) := by
  induction h with
  | @found n k hn =>
    calc (2 : ℚ) ^ k = F.unit * 2 ^ (k - F.fractionWidth) := (F.unit_mul_two_zpow k).symm
      _ ≤ n * 2 ^ (k - F.fractionWidth) := by gcongr
  | shift _ _ ih => rwa [two_mul_mul_two_zpow] at ih

theorem lt_two_zpow (h : F.Leads n k k') (hlt : n < 2 * F.unit) :
    (n : ℚ) * 2 ^ (k - F.fractionWidth) < 2 ^ (k' + 1) := by
  induction h with
  | @found n k hn =>
    have hlt' : (n : ℚ) < 2 * F.unit := by exact_mod_cast hlt
    calc (n : ℚ) * 2 ^ (k - F.fractionWidth)
        < 2 * F.unit * 2 ^ (k - F.fractionWidth) := by gcongr
      _ = 2 ^ (k + 1) := by rw [mul_assoc, unit_mul_two_zpow, zpow_add_one₀ two_ne_zero, mul_comm]
  | shift hn _ ih =>
    rw [← two_mul_mul_two_zpow]
    exact ih (by omega)

end Leads

theorem leads_log2 (hn : n ≠ 0) (hlt : n < 2 * F.unit) (k : ℤ) :
    F.Leads n k (k - (F.fractionWidth - n.log2 : ℕ)) := by
  induction hd : F.fractionWidth - n.log2 generalizing n k with
  | zero =>
    have hunit : F.unit ≤ n := (Nat.le_log2 hn).mp (by omega)
    simpa using Leads.found hunit
  | succ d ih =>
    have hunit : n < F.unit := (Nat.log2_lt hn).mp (by omega)
    have hnext := ih (n := 2 * n) (by omega) (by omega) (k - 1)
      (by rw [Nat.log2_two_mul hn]; omega)
    have hexp : k - ((d + 1 : ℕ) : ℤ) = k - 1 - (d : ℤ) := by
      push_cast
      ring
    rw [hexp]
    exact .shift hunit hnext

end Format

namespace Pattern

variable {F : Format} {x : Pattern F}

theorem exists_logB_eq (hx : x.HasFiniteFields) (hne : x.fieldSignificand ≠ 0) :
    ∃ k, x.logB = (some k, ∅) ∧
      F.Leads x.fieldSignificand (max (x.exponent : ℤ) 1 - F.bias) k := by
  have hzero : x.isZero = false := by
    rw [Bool.eq_false_iff, ne_eq, isZero_iff_of_finite hx]
    exact hne
  rw [logB, if_neg (by simp [isFinite_of_hasFiniteFields hx, hzero])]
  by_cases hn : F.implicitLeadingBit = true ∧ x.exponent ≠ 0
  · refine ⟨x.exponent - F.bias, by simp [hn], ?_⟩
    have hunit : F.unit ≤ x.fieldSignificand := by simp [fieldSignificand, hn]
    have hmax : max (x.exponent : ℤ) 1 = x.exponent := by omega
    rw [hmax]
    exact .found hunit
  · have hsig : x.fieldSignificand = x.mantissa := if_neg hn
    have hleads := Format.leads_log2 hne x.fieldSignificand_lt (max (x.exponent : ℤ) 1 - F.bias)
    rw [if_neg (by simpa using hn)]
    rw [hsig] at hleads ⊢
    exact ⟨_, by simp, hleads⟩

theorem logB_of_special (hx : x.isZero = true ∨ x.isInfinity = true ∨ x.isNaN = true) :
    x.logB = (none, Flags.nv) := by
  have hspecial : (!x.isFinite || x.isZero) = true := by
    rw [Bool.or_eq_true, Bool.not_eq_true', Bool.eq_false_iff, ne_eq, isFinite_iff]
    rcases hx with hx | hx | hx <;> simp [hx]
  rw [logB, if_pos hspecial]

/-- The binary exponent of a pattern, taken in an environment: that of a number other than zero is
the one at which the search arrives, and the number lies between that power of two and the next.
Without such a number the operation is invalid. -/
structure HasBinaryExponent (env : Environment) (x : Pattern F) : Prop where
  search : x.HasFiniteFields → ∀ k,
    env.eval none (fun _ => x.logB) = (some k, env) ↔
      F.Leads x.fieldSignificand (max (x.exponent : ℤ) 1 - F.bias) k
  number : x.HasFiniteFields → x.fieldSignificand ≠ 0 →
    ∃ k : ℤ, env.eval none (fun _ => x.logB) = (some k, env) ∧
      2 ^ k ≤ (x.fieldSignificand : ℚ) *
        2 ^ (max (x.exponent : ℤ) 1 - F.bias - F.fractionWidth) ∧
      (x.fieldSignificand : ℚ) * 2 ^ (max (x.exponent : ℤ) 1 - F.bias - F.fractionWidth) <
        2 ^ (k + 1)
  special : x.isZero = true ∨ x.isInfinity = true ∨ x.isNaN = true →
    env.eval none (fun _ => x.logB) = (none, env.raise Flags.nv)

/-- In every format the binary exponent is the floor of the binary logarithm of the magnitude. -/
theorem hasBinaryExponent (env : Environment) (x : Pattern F) : HasBinaryExponent env x where
  search hx k := by
    rcases eq_or_ne x.fieldSignificand 0 with hzero | hne
    · rw [Environment.eval, logB_of_special (Or.inl ((isZero_iff_of_finite hx).mpr hzero))]
      exact iff_of_false (by simp) fun hleads => hleads.ne_zero hzero
    · obtain ⟨k', hk', hleads⟩ := exists_logB_eq hx hne
      simp only [Environment.eval, hk', Environment.raise_empty, Prod.mk.injEq,
        Option.some.injEq, and_true]
      exact ⟨fun hk => hk ▸ hleads, hleads.unique⟩
  number hx hne := by
    obtain ⟨k, hk, hleads⟩ := exists_logB_eq hx hne
    refine ⟨k, ?_, hleads.two_zpow_le, hleads.lt_two_zpow x.fieldSignificand_lt⟩
    simp only [Environment.eval, hk, Environment.raise_empty]
  special hx := by rw [Environment.eval, logB_of_special hx]

/-- A pattern with the exponent field 3 whose leading bit is ten places down: the exponent is below
that of the least normal number, which is -14. -/
example :
    let F : Format := { exponentWidth := 5, mantissaWidth := 11, implicitLeadingBit := false }
    (pack F .negative 3 1).logB = (some (-22), ∅) := by
  decide +kernel

end Pattern
end HartFloat
