import HartFloat.Proofs.Core.Truncation
import HartFloat.Proofs.Pattern.Representation
import HartFloat.Proofs.Rounding.Accuracy

/-!
# Round trips between floats and integers

A word that stands for an integer of a type's range comes back from the conversion to that type and
the one from it, but the sign of a zero does not. The range is closed by the power of two above the
type's largest integer, which the first conversion has to replace by that integer and which the
second one restores, since it is the nearest value. Integers of up to 24 digits come back from the
conversions in the other order.
-/
namespace HartFloat

open Backend.Soft (ofWord toWord nearest)

namespace Primitives

variable {σ : Type} {P : Primitives σ} {first second : Operation} {w v w' : Word}

/-- When the source of the first operation holds the first word and the second operation has the
destination of the first for its source, its own destination holds the second word in the end. -/
def Carries (P : Primitives σ) (first second : Operation) (w w' : Word) : Prop :=
  ∀ (l : Layout) (core : Core σ) (o : Operands) (rd : ℕ), Core.Reachable P l core → l.Aligned →
    core.registers.readAll (first.sources o) = .ok [w] →
    (first.destination o).2 < registerCount →
    let o' : Operands := { rs1 := (first.destination o).2, rd }
    (second.destination o').2 < registerCount →
    ∃ core', (Core.execute P first o >>= fun _ => Core.execute P second o') core = (.ok (), core') ∧
      core'.registers.read (second.destination o').1 (second.destination o').2 = .ok w'

theorem carries_of_writes (hfirst : P.Writes first [w] v) (hsecond : P.Writes second [v] w')
    (hcount : second.sourceCount = 1) (hbank : ∀ o, second.sourceBank = (first.destination o).1) :
    P.Carries first second w w' := by
  intro l core o rd hcore ha hwords hd o' hd'
  obtain ⟨hfits, rfl⟩ := hcore.registers.fits
  obtain ⟨middle, hmiddle, hread⟩ := hfirst.read_destination hwords hfits ha hd
  have hframe := Core.fits_execute hfits P first o
  rw [hmiddle] at hframe
  have hwords' : middle.registers.readAll (second.sources o') = .ok [v] := by
    rw [Operation.sources, hcount, hbank o]
    change (middle.registers.read _ _ >>= fun _ => _) = _
    rw [hread]
    rfl
  rw [bind_apply, hmiddle]
  exact hsecond.read_destination hwords' hframe.1 (hframe.2 ▸ ha) hd'

end Primitives

theorem Number.clamp_intCast (s : Sign) (n least largest : ℤ) :
    (finite s n).clamp least largest = max least (min largest n) := by
  rw [clamp, Rat.cast_intCast, RoundingMode.roundReal_intCast]

theorem Word.number?_of_intCast {w : Word} {n : ℤ} (h : w.extended? = some ((n : ℝ) : EReal)) :
    ∃ s, (ofWord w).number? = some (.finite s n) := by
  obtain ⟨s, q, hq, hreal⟩ := number?_of_extended?_coe h
  exact ⟨s, by rw [hq, show q = n by exact_mod_cast hreal]⟩

namespace Backend.Soft

variable {w : Word} {n : ℤ}

theorem ofInt_of_extended? (h : w.extended? = some ((n : ℝ) : EReal)) :
    ofInt n = if w = Word.signMask then 0 else w := by
  by_cases hn : n = 0
  · subst hn
    rw [Int.cast_zero, EReal.coe_zero, Word.extended?_eq_zero_iff] at h
    rcases h with rfl | rfl <;> decide
  · have hsign : w ≠ Word.signMask := by
      intro heq
      rw [Word.extended?_eq_zero_iff.mpr (Or.inr heq), Option.some.injEq] at h
      exact hn (by exact_mod_cast h.symm)
    obtain ⟨hfinite, hvalue⟩ := Format.fieldValue_of_extended? h
    have hne : (ofWord w).fieldValue ≠ 0 := by
      intro hzero
      rw [hzero, Rat.cast_zero] at hvalue
      exact hn (by exact_mod_cast hvalue.symm)
    have hreal : (Exact.Surd.ofInt n).toReal = (ofWord w).fieldValue := by
      rw [Exact.Surd.toReal_ofInt, hvalue]
    rw [if_neg hsign, ofInt,
      Pattern.rounding_fieldValue Format.regular_binary32 rfl hfinite hne hreal, toWord_ofWord]

/-- An end of a range is restored where the integer below it is rounded to it. -/
theorem ofInt_min {m : ℤ} (hm : ofInt (m - 1) = ofInt m) (hn : n ≤ m) :
    ofInt (min (m - 1) n) = ofInt n := by
  rcases hn.lt_or_eq with hlt | rfl
  · rw [min_eq_right (by omega)]
  · rw [min_eq_left (by omega), hm]

theorem extended?_ofInt (hn : |n| ≤ 2 ^ 24) :
    (ofInt n).extended? = some ((n : ℝ) : EReal) := by
  have hspacing : Format.binary32.spacing 23 = 1 := zpow_zero 2
  have hmem := Format.multiple_mem_finiteValues_of_le Format.regular_binary32 (j := n) (e := 23)
    hn (by decide) (by decide) (fun h => absurd h (by decide))
  rw [hspacing, mul_one] at hmem
  have hround := Format.isRounding_rounding Format.regular_binary32 nearest (Exact.Surd.ofInt n)
  rw [Exact.Surd.toReal_ofInt] at hround
  exact hround.extended?_eq Format.regular_binary32 hmem

end Backend.Soft

namespace Backend

open Soft

variable {τ : Type} (nan : Host.NaNChoice τ) (k : Backend) {w : Word} {n : ℤ}

theorem writes_fcvtWS (h : w.extended? = some ((n : ℝ) : EReal)) :
    (k.primitives nan).Writes .fcvtWS [w]
      (BitVec.ofInt 32 (max (-2 ^ 31) (min (2 ^ 31 - 1) n))) := by
  obtain ⟨s, hs⟩ := Word.number?_of_intCast h
  rw [← Number.clamp_intCast s]
  exact k.writes_of_result nan (by decide) (congrArg Prod.fst (toSigned_eq hs ∅))

theorem writes_fcvtWuS (h : w.extended? = some ((n : ℝ) : EReal)) :
    (k.primitives nan).Writes .fcvtWuS [w] (BitVec.ofInt 32 (max 0 (min (2 ^ 32 - 1) n))) := by
  obtain ⟨s, hs⟩ := Word.number?_of_intCast h
  rw [← Number.clamp_intCast s]
  exact k.writes_of_result nan (by decide) (congrArg Prod.fst (toUnsigned_eq hs ∅))

theorem writes_fcvtSW (hlo : -2 ^ 31 ≤ n) (hhi : n < 2 ^ 31) :
    (k.primitives nan).Writes .fcvtSW [BitVec.ofInt 32 n]
      (ofInt n) := by
  have htoInt : (BitVec.ofInt 32 n).toInt = n :=
    BitVec.toInt_ofInt_eq_self (by decide) hlo hhi
  refine k.writes_of_result nan (by decide) ((ofInteger_apply _ ∅).trans ?_)
  exact congrArg ofInt htoInt

theorem writes_fcvtSWu (hlo : 0 ≤ n) (hhi : n < 2 ^ 32) :
    (k.primitives nan).Writes .fcvtSWu [BitVec.ofInt 32 n]
      (ofInt n) := by
  have htoNat : ((BitVec.ofInt 32 n).toNat : ℤ) = n := by
    rw [BitVec.toNat_ofInt]
    omega
  refine k.writes_of_result nan (by decide) ((ofInteger_apply _ ∅).trans ?_)
  exact congrArg ofInt htoNat

/-- On either backend, and any machine, a word that stands for an integer up to either end of the
signed range, or of the unsigned one, comes back from the conversion to such integers and the one
from them, with a positive zero for a negative one. Integers up to two to the 24 come back as they
are. -/
theorem conversions_round_trip {τ : Type} (nan : Host.NaNChoice τ) (k : Backend) :
    (∀ (w : Word) (n : ℤ), w.extended? = some ((n : ℝ) : EReal) → -2 ^ 31 ≤ n → n ≤ 2 ^ 31 →
      (k.primitives nan).Carries .fcvtWS .fcvtSW w (if w = Word.signMask then 0 else w)) ∧
    (∀ (w : Word) (n : ℤ), w.extended? = some ((n : ℝ) : EReal) → 0 ≤ n → n ≤ 2 ^ 32 →
      (k.primitives nan).Carries .fcvtWuS .fcvtSWu w (if w = Word.signMask then 0 else w)) ∧
    ∀ n : ℤ, |n| ≤ 2 ^ 24 →
      (k.primitives nan).Carries .fcvtSW .fcvtWS (BitVec.ofInt 32 n) (BitVec.ofInt 32 n) := by
  refine ⟨fun w n h hlo hhi => ?_, fun w n h hlo hhi => ?_, fun n hn => ?_⟩
  · have hrestored := ofInt_min (m := 2 ^ 31) (by decide +kernel) hhi
    have hback := k.writes_fcvtSW nan (n := min (2 ^ 31 - 1) n) (by omega) (by omega)
    have hthere := k.writes_fcvtWS nan h
    rw [hrestored, ofInt_of_extended? h] at hback
    rw [max_eq_right (by omega)] at hthere
    exact Primitives.carries_of_writes hthere hback rfl fun _ => rfl
  · have hrestored := ofInt_min (m := 2 ^ 32) (by decide +kernel) hhi
    have hback := k.writes_fcvtSWu nan (n := min (2 ^ 32 - 1) n) (by omega) (by omega)
    have hthere := k.writes_fcvtWuS nan h
    rw [hrestored, ofInt_of_extended? h] at hback
    rw [max_eq_right (by omega)] at hthere
    exact Primitives.carries_of_writes hthere hback rfl fun _ => rfl
  · rw [abs_le] at hn
    have hthere := k.writes_fcvtSW nan (n := n) (by omega) (by omega)
    have hback := k.writes_fcvtWS nan (extended?_ofInt (abs_le.mpr hn))
    rw [min_eq_right (by omega), max_eq_right (by omega)] at hback
    exact Primitives.carries_of_writes hthere hback rfl fun _ => rfl

/-- Two to the 31 is not a signed integer, and yet it comes back in another register. -/
theorem conversions_round_trip_two_pow :
    let core : Core Unit := (Core.write .float 1 0x4f000000 ⟨.allocate {}, ()⟩).2
    let o : Operands := { rs1 := 1 }
    let o' : Operands := { rs1 := returnRegister, rd := 2 }
    Word.extended? 0x4f000000 = some (((2 ^ 31 : ℤ) : ℝ) : EReal) ∧
      Core.Reachable (Host.primitives Host.canonical) {} core ∧ ({} : Layout).Aligned ∧
      core.registers.readAll (Operation.fcvtWS.sources o) = .ok [0x4f000000] ∧
      ∃ core', (Core.execute (Host.primitives Host.canonical) .fcvtWS o >>= fun _ =>
        Core.execute (Host.primitives Host.canonical) .fcvtSW o') core = (.ok (), core') ∧
          core'.registers.read .float 2 = .ok 0x4f000000 := by
  intro core o o'
  have hvalue : (ofWord 0x4f000000).fieldValue = (2 ^ 31 : ℤ) := by decide +kernel
  have hextended : Word.extended? 0x4f000000 = some (((2 ^ 31 : ℤ) : ℝ) : EReal) := by
    rw [Word.extended?, Format.extended?_of_finite (by decide), hvalue, Rat.cast_intCast]
  have hcore : Core.Reachable (Host.primitives Host.canonical) {} core := .write (.create rfl)
  have hwords : core.registers.readAll (Operation.fcvtWS.sources o) = .ok [0x4f000000] := by
    decide +kernel
  refine ⟨hextended, hcore, Layout.aligned_default, hwords, ?_⟩
  exact (conversions_round_trip Host.canonical host).1 _ (2 ^ 31) hextended (by decide) le_rfl {}
    core o 2 hcore Layout.aligned_default hwords (by decide) (by decide)

end Backend
end HartFloat
