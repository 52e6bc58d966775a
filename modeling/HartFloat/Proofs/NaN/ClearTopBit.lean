import HartFloat.Proofs.NaN.InvalidProduct

/-!
# Payloads of quiet NaNs whose top bit is clear

On a platform whose quiet NaNs have the top mantissa bit clear a NaN is made quiet by putting the
canonical NaN in its place, one that is quiet already included. Whichever operand a mode selects,
the result is the canonical NaN then, whose payload consists of ones. A payload gets through exactly
if it is this one.
-/
namespace HartFloat

namespace Pattern

variable {F : Format} {x y z : Pattern F}

/-- What a NaN carries below the bit that tells whether it is quiet. -/
def payload (x : Pattern F) : ℕ := x.mantissa % F.msb

theorem IsPreferred.eq_or_eq (h : IsPreferred (F.platform.binaryOperations.preference x y) z) :
    z = x ∨ z = y := by
  have hoperand : z ∈ [x, y] := h.mem (F.platform.binaryOperations.isComplete x y)
  simpa using hoperand

section

variable (hq : F.platform.canonicalMsb = false)

include hq

theorem quietNaNFormat_of_clear : F.quietNaNFormat = .mipsLegacy := by
  rw [Format.quietNaNFormat, Platform.quietNaNFormat, hq]
  rfl

theorem nanFrom_of_clear (selected : Option (Pattern F)) : nanFrom selected = canonicalNaN F := by
  cases selected with
  | none => rfl
  | some x => rw [nanFrom, quieted, quietNaNFormat_of_clear hq]

theorem binaryNaN_of_clear (x y : Pattern F) :
    binaryNaN x y = .ok (canonicalNaN F, signaled [x, y]) := by
  rw [binaryNaN, nanFrom_of_clear hq]

theorem payload_canonicalNaN_of_clear (hm : 2 ≤ F.mantissaWidth) :
    (canonicalNaN F).payload = F.msb - 1 := by
  obtain ⟨htwo, hmsb⟩ := two_mul_msb hm
  have hones : F.maxMantissa - F.msb = F.msb - 1 := by
    rw [Format.maxMantissa, ← htwo]
    omega
  have hmantissa : (canonicalNaN F).mantissa = (F.msb - 1) % 2 ^ F.mantissaWidth := by
    rw [canonicalNaN, quietNaNFormat_of_clear hq, mantissa_pack]
    exact congrArg (· % _) hones
  have hlt : F.msb - 1 < 2 ^ F.mantissaWidth := by omega
  rw [payload, hmantissa, Nat.mod_eq_of_lt hlt, Nat.mod_eq_of_lt (by omega)]

end

end Pattern

namespace Environment

open Pattern

variable {F : Format} {x y z : Pattern F}

/-- The operation, run in the environment, gives a NaN with the payload of the operand. -/
def KeepsPayload (env : Environment) (mode? : Option RoundingMode)
    (op : Context → Outcome (Pattern F)) (z : Pattern F) : Prop :=
  ∃ r env', env.run mode? op = .ok (r, env') ∧ r.isNaN = true ∧ r.payload = z.payload

theorem keepsPayload_iff {env env' : Environment} {mode? : Option RoundingMode}
    {op : Context → Outcome (Pattern F)} {r : Pattern F} (hrun : env.run mode? op = .ok (r, env'))
    (hr : r.isNaN = true) : env.KeepsPayload mode? op z ↔ z.payload = r.payload := by
  constructor
  · rintro ⟨r', env'', hrun', -, hpayload⟩
    rw [hrun, Except.ok.injEq, Prod.mk.injEq] at hrun'
    obtain ⟨rfl, -⟩ := hrun'
    exact hpayload.symm
  · exact fun hpayload => ⟨r, env', hrun, hr, hpayload.symm⟩

/-- Where quiet NaNs have a clear top bit, an operation with a NaN among its operands gives the
canonical NaN, also under a mode that selects an operand for its payload. The payload of a quiet
NaN that is selected is kept exactly if it consists of ones. -/
theorem run_keepsPayload_iff (hm : 3 ≤ F.mantissaWidth) (hq : F.platform.canonicalMsb = false)
    (hz : IsPreferred (F.platform.binaryOperations.preference x y) z)
    (hquiet : z.classify = .quietNaN) (env : Environment) (mode? : Option RoundingMode) :
    ∀ op ∈ [add, sub, mul, div, remainder],
      env.run mode? (fun c => op c x y) = .ok (canonicalNaN F, env.raise (signaled [x, y])) ∧
        (canonicalNaN F).classify = .quietNaN ∧
        (env.KeepsPayload mode? (fun c => op c x y) z ↔ z.payload = F.msb - 1) := by
  intro op hop
  have hnan : x.isNaN = true ∨ y.isNaN = true := by
    rcases hz.eq_or_eq with rfl | rfl
    · exact Or.inl (isNaN_of_quiet hquiet)
    · exact Or.inr (isNaN_of_quiet hquiet)
  have hclass : (canonicalNaN F).classify = .quietNaN :=
    classify_canonicalNaN (by omega) (isNaN_iff.mp (isNaN_of_quiet hquiet)).1
  have hrun : env.run mode? (fun c => op c x y) =
      .ok (canonicalNaN F, env.raise (signaled [x, y])) := by
    rw [run, eq_binaryNaN hop hnan, binaryNaN_of_clear hq]
    rfl
  refine ⟨hrun, hclass, ?_⟩
  rw [keepsPayload_iff hrun (isNaN_of_quiet hclass), payload_canonicalNaN_of_clear hq (by omega)]

/-- In single precision, a quotient by a quiet NaN whose payload consists of ones, and one whose
payload does not. -/
theorem run_keepsPayload_iff_hppa :
    let F : Format := { Format.binary32 with platform := Platform.hppa }
    let one := pack F .positive 127 0
    let ones := pack F .negative 255 0x3fffff
    let other := pack F .negative 255 1
    3 ≤ F.mantissaWidth ∧ F.platform.canonicalMsb = false ∧
      (IsPreferred (F.platform.binaryOperations.preference one ones) ones ∧
        ones.classify = .quietNaN) ∧
      (default : Environment).KeepsPayload none (fun c => div c one ones) ones ∧
      (IsPreferred (F.platform.binaryOperations.preference one other) other ∧
        other.classify = .quietNaN) ∧
      ¬(default : Environment).KeepsPayload none (fun c => div c one other) other := by
  intro F one ones other
  have hm : 3 ≤ F.mantissaWidth := by decide
  have hones : IsPreferred (F.platform.binaryOperations.preference one ones) ones :=
    isPreferred_of_taken (by decide +kernel)
  have hother : IsPreferred (F.platform.binaryOperations.preference one other) other :=
    isPreferred_of_taken (by decide +kernel)
  have hquiet : ones.classify = .quietNaN ∧ other.classify = .quietNaN := by decide +kernel
  have hdiv : div ∈ [add (F := F), sub, mul, div, remainder] := by simp
  have hkept := (run_keepsPayload_iff hm rfl hones hquiet.1 default none div hdiv).2.2
  have hlost := (run_keepsPayload_iff hm rfl hother hquiet.2 default none div hdiv).2.2
  refine ⟨hm, rfl, ⟨hones, hquiet.1⟩, hkept.mpr (by decide +kernel), ⟨hother, hquiet.2⟩, ?_⟩
  rw [hlost]
  decide +kernel

/-- A mode that selects an operand for its payload does not bring the payload into the result. -/
theorem payload_of_quiet_operand_lost :
    ¬∀ F : Format, 3 ≤ F.mantissaWidth → F.platform.canonicalMsb = false →
      F.platform.binaryOperations ≠ .alwaysCanonical →
      ∀ (env : Environment) (mode? : Option RoundingMode) (x y z : Pattern F),
        IsPreferred (F.platform.binaryOperations.preference x y) z → z.classify = .quietNaN →
        ∀ op ∈ [add, sub, mul, div, remainder], env.KeepsPayload mode? (fun c => op c x y) z := by
  intro h
  let F : Format := { Format.binary32 with platform := Platform.mipsLegacy }
  let nan := pack F .positive 255 1
  let one := pack F .positive 127 0
  obtain ⟨r, env', hrun, -, hpayload⟩ := h F (by decide) rfl (by decide) default none nan one nan
    (isPreferred_of_taken (by decide +kernel)) (by decide +kernel) add List.mem_cons_self
  have hadd : (default : Environment).run none (fun c => add c nan one) =
      .ok (canonicalNaN F, default) := by decide +kernel
  rw [hadd, Except.ok.injEq, Prod.mk.injEq] at hrun
  obtain ⟨rfl, -⟩ := hrun
  revert hpayload
  decide +kernel

end Environment
end HartFloat
