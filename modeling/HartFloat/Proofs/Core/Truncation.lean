import HartFloat.Proofs.Core.Results

/-!
# Conversions to integers

A conversion to a 32-bit integer type cuts the number in its source to an integer and moves what
lies outside the range of the type to the nearer end; a NaN goes to the upper end. Beyond the range
the operation is invalid and nothing else, and within it inexact if a fraction was cut off.
-/
namespace HartFloat

open Backend.Soft (Performs ofWord primitives)

noncomputable def truncate (r : ℝ) : ℤ := if 0 ≤ r then ⌊r⌋ else ⌈r⌉

theorem roundReal_towardZero (r : ℝ) : RoundingMode.towardZero.roundReal r = truncate r := rfl

namespace Number

variable {s : Sign} {q : ℚ} {least largest : ℤ}

theorem clampFlags_finite_eq :
    (finite s q).clampFlags least largest =
      if truncate q < least ∨ largest < truncate q then Flags.nv
      else if (truncate q : ℝ) = q then ∅
      else Flags.nx := by
  have hrange : truncate q ∈ Set.Icc least largest ↔
      ¬(truncate q < least ∨ largest < truncate q) := by
    rw [Set.mem_Icc, not_or, not_lt, not_lt]
  have hinexact : Flags.when (decide ((truncate q : ℚ) ≠ q)) Flags.nx =
      if (truncate q : ℝ) = q then ∅ else Flags.nx := by
    have hexact : (truncate q : ℚ) = q ↔ (truncate q : ℝ) = q := by
      exact_mod_cast Iff.rfl
    rw [← if_congr hexact rfl rfl]
    by_cases h : (truncate q : ℚ) = q <;> simp [Flags.when, h]
  rw [clampFlags, roundReal_towardZero, hinexact, if_congr hrange rfl rfl, ite_not]

end Number

namespace Operation

variable {op : Operation} {least largest : ℤ}

/-- The operation writes to the return register the integer in the range that a number is cut to,
and raises what is due. -/
structure Truncates (op : Operation) (least largest : ℤ) : Prop where
  destination (o : Operands) : op.destination o = (.integer, returnRegister)
  isNaN (w : Word) (h : w.isNaN = true) :
    Performs op [w] (BitVec.ofInt 32 largest) Flags.nv
  positiveInfinity (w : Word) (h : w.extended? = some ⊤) :
    Performs op [w] (BitVec.ofInt 32 largest) Flags.nv
  negativeInfinity (w : Word) (h : w.extended? = some ⊥) :
    Performs op [w] (BitVec.ofInt 32 least) Flags.nv
  finite (w : Word) (v : ℝ) (h : w.extended? = some (v : EReal)) :
    Performs op [w] (BitVec.ofInt 32 (max least (min largest (truncate v))))
      (if truncate v < least ∨ largest < truncate v then Flags.nv
        else if (truncate v : ℝ) = v then ∅
        else Flags.nx)

/-- What is computed from numbers and from NaNs settles how an operation truncates. -/
theorem truncates_of_result (hdestination : ∀ o, op.destination o = (.integer, returnRegister))
    (hnan : ∀ w : Word, w.isNaN = true → ∀ s,
      op.result primitives [w] s = (BitVec.ofInt 32 largest, s ∪ Flags.nv))
    (hnumber : ∀ w a, (ofWord w).number? = some a → ∀ s, op.result primitives [w] s =
      (BitVec.ofInt 32 (a.clamp least largest), s ∪ a.clampFlags least largest)) :
    op.Truncates least largest where
  destination := hdestination
  isNaN w h := Backend.Soft.performs_of_result (hnan w h)
  positiveInfinity w h := by
    have ha := Word.number?_of_extended?_infinity (s := .positive) h
    exact Backend.Soft.performs_of_result (hnumber w _ ha)
  negativeInfinity w h := by
    have ha := Word.number?_of_extended?_infinity (s := .negative) h
    exact Backend.Soft.performs_of_result (hnumber w _ ha)
  finite w v h := by
    obtain ⟨s, q, ha, rfl⟩ := Word.number?_of_extended?_coe h
    rw [← Number.clampFlags_finite_eq]
    exact Backend.Soft.performs_of_result (hnumber w _ ha)

end Operation

namespace Backend.Soft

/-- On the exact backend the two conversions to integers truncate to the signed and to the unsigned
32-bit integers. -/
theorem conversions_truncate :
    Operation.fcvtWS.Truncates (-2 ^ 31) (2 ^ 31 - 1) ∧
      Operation.fcvtWuS.Truncates 0 (2 ^ 32 - 1) := by
  constructor
  · exact Operation.truncates_of_result (fun _ => rfl) (fun w h => toSigned_of_isNaN h)
      fun w a h => toSigned_eq h
  · exact Operation.truncates_of_result (fun _ => rfl) (fun w h => toUnsigned_of_isNaN h)
      fun w a h => toUnsigned_eq h

/-- A negative half is cut to zero, which is an unsigned integer. -/
theorem conversions_truncate_half :
    let core : Core Flags := (Core.write .float 1 0xbf000000 ⟨.allocate {}, ∅⟩).2
    let o : Operands := { rs1 := 1 }
    core.registers.readAll (Operation.fcvtWuS.sources o) = .ok [0xbf000000] ∧
      Word.extended? 0xbf000000 = some ((-1 / 2 : ℝ) : EReal) ∧
      Core.execute primitives .fcvtWuS o core =
        Core.write .integer returnRegister 0 { core with state := core.state ∪ Flags.nx } := by
  intro core o
  have hwords : core.registers.readAll (Operation.fcvtWuS.sources o) = .ok [0xbf000000] := by
    decide +kernel
  have hvalue : (ofWord 0xbf000000).fieldValue = -1 / 2 := by
    decide +kernel
  have hextended : Word.extended? 0xbf000000 = some ((-1 / 2 : ℝ) : EReal) := by
    rw [Word.extended?, Format.extended?_of_finite (by decide), hvalue]
    norm_num
  have htruncate : truncate (-1 / 2) = 0 := by
    norm_num [truncate]
  have hperforms := conversions_truncate.2.finite _ _ hextended
  rw [htruncate, if_neg (by decide), if_neg (by norm_num)] at hperforms
  exact ⟨hwords, hextended, hperforms o core hwords⟩

end Backend.Soft
end HartFloat
