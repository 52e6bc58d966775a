import HartFloat.Proofs.Core.Execution

/-!
# How the exact backend collects exceptions

Every computation of the exact backend adds its exceptions to those collected before. What was
collected has no influence: the result and the exceptions that are added are those of the same
computation in a backend that has collected nothing.
-/
namespace HartFloat.Backend.Soft

variable {α β : Type}

/-- Exceptions collected before are kept and have no influence. -/
def Accumulates (run : StateM Flags α) : Prop := ∀ s, run s = ((run ∅).1, s ∪ (run ∅).2)

theorem accumulates_pure (a : α) : Accumulates (pure a) := fun s => by
  change (a, s) = (a, s ∪ ∅)
  rw [Flags.union_empty]

theorem accumulates_collect (r : α × Flags) : Accumulates (collect r) := fun s => by
  change (r.1, s ∪ r.2) = (r.1, s ∪ (∅ ∪ r.2))
  rw [Flags.empty_union]

theorem Accumulates.bind {x : StateM Flags α} {f : α → StateM Flags β} (hx : Accumulates x)
    (hf : ∀ a, Accumulates (f a)) : Accumulates (x >>= f) := fun s => by
  change f (x s).1 (x s).2 = ((f (x ∅).1 (x ∅).2).1, s ∪ (f (x ∅).1 (x ∅).2).2)
  rw [hx s, hf _ (s ∪ (x ∅).2), hf _ (x ∅).2, Flags.union_assoc]

theorem Accumulates.map {x : StateM Flags α} (hx : Accumulates x) (f : α → β) :
    Accumulates (f <$> x) := fun s => by
  change (f (x s).1, (x s).2) = (f (x ∅).1, s ∪ (x ∅).2)
  rw [hx s]

theorem binary_eq_collect {op : Context → Single → Single → Outcome Single} {a b : Word}
    {z : Single} {f : Flags} (h : op nearest (ofWord a) (ofWord b) = .ok (z, f)) :
    binary op a b = collect (toWord z, f) := by
  rw [binary, h]
  rfl

theorem accumulates_binary (op : Context → Single → Single → Outcome Single) (a b : Word) :
    Accumulates (binary op a b) :=
  (accumulates_collect _).map toWord

theorem accumulates_convert (t : IntegerType) (largest least a : Word) :
    Accumulates (convert t largest least a) := by
  refine (accumulates_collect _).bind fun n? => ?_
  cases n? <;> exact accumulates_pure _

theorem accumulates_iterateRoot (x : Word) (n : ℕ) (guess : Word) :
    Accumulates (primitives.iterateRoot x n guess) := by
  induction n generalizing guess with
  | zero => exact accumulates_pure guess
  | succ n ih =>
    refine Accumulates.bind ?_ ih
    refine (accumulates_binary _ x guess).bind fun quotient => ?_
    exact (accumulates_binary _ guess quotient).bind fun sum => accumulates_binary _ sum _

theorem accumulates_sqrtApprox (x : Word) : Accumulates (primitives.sqrtApprox x) := by
  unfold Primitives.sqrtApprox
  split_ifs
  · exact accumulates_pure x
  · exact accumulates_binary _ 0 0
  · exact accumulates_iterateRoot x _ x

theorem accumulates_pick (firstWhen : Ordering) (a b : Word) :
    Accumulates (Operation.pick primitives firstWhen a b) := by
  unfold Operation.pick
  split
  · exact accumulates_pure _
  · exact accumulates_pure _
  · exact accumulates_pure _
  · exact (accumulates_collect _).bind fun _ => accumulates_pure _

theorem accumulates_compute (op : Operation) (a b c : Word) :
    Accumulates (op.compute primitives a b c) := by
  cases op with
  | fadd | fsub | fmul | fdiv => exact accumulates_binary _ a b
  | fsqrt => exact accumulates_sqrtApprox a
  | fmin | fmax => exact accumulates_pick _ a b
  | fmadd | fmsub | fnmadd | fnmsub =>
    exact (accumulates_binary _ a b).bind fun product => accumulates_binary _ _ c
  | fsgnj | fsgnjn | fsgnjx | fmvXW | fmvWX | fclass => exact accumulates_pure _
  | feq | flt | fle =>
    exact ((accumulates_collect _).bind fun _ => accumulates_pure _).map _
  | fcvtWS | fcvtWuS => exact accumulates_convert _ _ _ a
  | fcvtSW | fcvtSWu => exact (accumulates_collect _).map toWord

end HartFloat.Backend.Soft
