import HartFloat.Proofs.Arithmetic.Negation
import HartFloat.Proofs.Backend.Accumulation
import HartFloat.Proofs.Core.Execution
import HartFloat.Proofs.Word.Fields

/-!
# Operations that differ in signs and in the order of their operands

A word with its sign bit flipped holds the opposite pattern. On the exact backend a difference is
the sum with the flipped word, sums and products do not depend on the order of their operands, and
the fused operations that subtract or negate come down to the one that adds. Equal computations
have the same effect on a core: the same word is written, and the same exceptions are left behind.
-/
namespace HartFloat

namespace Backend.Soft

open Pattern

variable {a b c w : Word}

theorem isOpposite_negate (w : Word) : IsOpposite (ofWord w) (ofWord w.negate) where
  sign := by
    have hnegative : w.negate.isNegative = !w.isNegative := by
      rw [Bool.eq_iff_iff, Bool.not_eq_true', ← Bool.not_eq_true, Word.isNegative_iff,
        Word.isNegative_iff, Word.negate_eq, Word.signBit_ofParts]
      generalize w.signBit = s
      revert s
      decide
    rw [sign_ofWord, sign_ofWord, hnegative]
    cases w.isNegative <;> rfl
  exponent := by rw [exponent_ofWord, exponent_ofWord, Word.negate_eq, Word.exponent_ofParts]
  mantissa := by rw [mantissa_ofWord, mantissa_ofWord, Word.negate_eq, Word.fraction_ofParts]

theorem toWord_of_isOpposite {x x' : Single} (h : IsOpposite x x') :
    toWord x' = (toWord x).negate := by
  have hword := isOpposite_negate (toWord x)
  rw [ofWord_toWord] at hword
  rw [h.unique rfl hword, toWord_ofWord]

theorem sub_eq_add_negate (a b : Word) : primitives.sub a b = primitives.add a b.negate :=
  congrArg settleWord
    (sub_eq_add_of_isOpposite rfl (by decide) nearest (ofWord a) (isOpposite_negate b))

theorem add_swap (a b : Word) : primitives.add a b = primitives.add b a :=
  congrArg settleWord
    (add_comm_of_alwaysCanonical rfl (by decide) nearest (ofWord a) (ofWord b))

theorem mul_swap (a b : Word) : primitives.mul a b = primitives.mul b a :=
  congrArg settleWord
    (mul_comm_of_alwaysCanonical rfl (by decide) nearest (ofWord a) (ofWord b))

theorem add_negate_of_isNaN (hw : w.isNaN = true) (c : Word) :
    primitives.add w.negate c = primitives.add w c := by
  refine congrArg settleWord ?_
  exact add_of_isOpposite_of_isNaN rfl nearest _ (isOpposite_negate w) (by rwa [isNaN_ofWord])

/-- What does not look at the sign of a NaN takes the product with the flipped factor for the
flipped product. -/
theorem mul_negate_bind {α : Type} (next : Word → StateM Flags α)
    (hnan : next Word.canonicalNaN.negate = next Word.canonicalNaN) (a b : Word) :
    (primitives.mul a b >>= fun w => next w.negate) = primitives.mul a.negate b >>= next := by
  obtain ⟨⟨z, f⟩, ⟨z', f'⟩, hmul, hmul', h⟩ :=
    mul_of_isOpposite rfl rfl (by decide) nearest (ofWord b) (isOpposite_negate a)
  have happly : primitives.mul a b = collect (toWord z, f) := binary_eq_collect hmul
  have happly' : primitives.mul a.negate b = collect (toWord z', f') := binary_eq_collect hmul'
  have hsame : f' = f ∧ next (toWord z).negate = next (toWord z') := by
    rcases h with ⟨hz, rfl⟩ | ⟨hz, hr⟩
    · exact ⟨rfl, congrArg next (toWord_of_isOpposite hz).symm⟩
    · obtain ⟨rfl, rfl⟩ := Prod.mk.inj hr
      obtain rfl : z' = canonicalNaN .binary32 := hz
      exact ⟨rfl, hnan⟩
  obtain ⟨rfl, hnext⟩ := hsame
  rw [happly, happly']
  funext s
  exact congrFun hnext (s ∪ f')

theorem isNaN_canonicalNaN : Word.canonicalNaN.isNaN = true := by decide

end Backend.Soft

namespace Operation

open Backend.Soft

/-- The first operation has the effect on its words that the second has on its own. On cores that
hold these words in the sources and have collected the same exceptions, both go on to write the
same word, with the same exceptions collected then. -/
def SameEffect (op : Operation) (words : List Word) (op' : Operation) (words' : List Word) :
    Prop :=
  ∀ (o o' : Operands) (core core' : Core Flags),
    core.registers.readAll (op.sources o) = .ok words →
    core'.registers.readAll (op'.sources o') = .ok words' → core.state = core'.state →
    ∃ w flags,
      Core.execute primitives op o core =
        Core.write (op.destination o).1 (op.destination o).2 w { core with state := flags } ∧
      Core.execute primitives op' o' core' =
        Core.write (op'.destination o').1 (op'.destination o').2 w { core' with state := flags }

theorem SameEffect.of_result_eq {op op' : Operation} {words words' : List Word}
    (h : op.result primitives words = op'.result primitives words') :
    SameEffect op words op' words' := by
  intro o o' core core' hwords hwords' hstate
  refine ⟨_, _, by rw [Core.execute_apply, hwords], ?_⟩
  rw [Core.execute_apply, hwords', h, hstate]

/-- Subtracting is adding the flipped word, sums and products are symmetric, and each fused
operation is the one that adds the product, with the first and the third word flipped as its own
signs say. -/
theorem sameEffect_signs (a b c : Word) :
    SameEffect .fsub [a, b] .fadd [a, b.negate] ∧
      SameEffect .fadd [a, b] .fadd [b, a] ∧
      SameEffect .fmul [a, b] .fmul [b, a] ∧
      SameEffect .fmsub [a, b, c] .fmadd [a, b, c.negate] ∧
      SameEffect .fnmsub [a, b, c] .fmadd [a.negate, b, c] ∧
      SameEffect .fnmadd [a, b, c] .fmadd [a.negate, b, c.negate] := by
  refine ⟨.of_result_eq (sub_eq_add_negate a b), .of_result_eq (add_swap a b),
    .of_result_eq (mul_swap a b), .of_result_eq ?_, .of_result_eq ?_, .of_result_eq ?_⟩
  · have hsub : (fun w => primitives.sub w c) = fun w => primitives.add w c.negate :=
      funext fun w => sub_eq_add_negate w c
    exact congrArg (primitives.mul a b >>= ·) hsub
  · exact mul_negate_bind (fun w => primitives.add w c)
      (add_negate_of_isNaN isNaN_canonicalNaN c) a b
  · have hsub : (fun w : Word => primitives.sub w.negate c) =
        fun w => primitives.add w.negate c.negate :=
      funext fun w => sub_eq_add_negate w.negate c
    refine (congrArg (primitives.mul a b >>= ·) hsub).trans ?_
    exact mul_negate_bind (fun w => primitives.add w c.negate)
      (add_negate_of_isNaN isNaN_canonicalNaN c.negate) a b

end Operation
end HartFloat
