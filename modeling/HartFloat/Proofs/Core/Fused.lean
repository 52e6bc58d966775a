import HartFloat.Environment
import HartFloat.Proofs.Arithmetic.Fused
import HartFloat.Proofs.Backend.Accumulation
import HartFloat.Proofs.Core.Execution

/-!
# Where the fused operation could as well round once

The operation that multiplies and adds rounds the product before the sum. Where the product is
exact the first rounding does nothing, and the operation writes what a single rounding to nearest
of the whole expression gives, with the same exceptions.
-/
namespace HartFloat

open Backend.Soft Pattern

namespace Backend.Soft

theorem exists_fused_of_exact (a b c : Word) (hexact : (primitives.mul a b ∅).2.inexact = false) :
    ∃ v f, fusedMultiplyAdd nearest (ofWord a) (ofWord b) (ofWord c) = .ok (v, f) ∧
      (primitives.mul a b >>= fun w => primitives.add w c) = collect (toWord v, f) := by
  obtain ⟨w, f, hmul, -⟩ :=
    flags_mul (c := nearest) Format.regular_binary32 rfl (by decide) rfl (ofWord a) (ofWord b)
  have hproduct : primitives.mul a b = collect (toWord w, f) := binary_eq_collect hmul
  have hf : f.inexact = false := by
    rw [hproduct] at hexact
    change (∅ ∪ f).inexact = false at hexact
    rwa [Flags.empty_union] at hexact
  obtain ⟨v, g, hadd, hfused⟩ :=
    addsUp_of_exact Format.regular_binary32 rfl (by decide) rfl hmul hf rfl rfl rfl (ofWord c)
  have hsum : primitives.add (toWord w) c = collect (toWord v, g) := binary_eq_collect hadd
  refine ⟨v, f ∪ g, hfused, ?_⟩
  rw [hproduct]
  funext s
  calc primitives.add (toWord w) c (s ∪ f) = (toWord v, s ∪ f ∪ g) := congrFun hsum (s ∪ f)
    _ = (toWord v, s ∪ (f ∪ g)) := by rw [Flags.union_assoc]

end Backend.Soft

namespace Core

/-- Where the product is not inexact, as it is whenever it overflows or underflows, multiplying and
adding in two steps writes the word and raises the exceptions of the fused operation on patterns.
The words may be any, NaNs included. -/
theorem execute_fmadd_of_exact (a b c : Word)
    (hexact : (primitives.mul a b ∅).2.inexact = false) :
    ∃ y f,
      (default : Environment).run (some .tiesToEven)
        (fun k => fusedMultiplyAdd k (ofWord a) (ofWord b) (ofWord c)) =
          .ok (y, (default : Environment).raise f) ∧
      ∀ (o : Operands) (core : Core Flags),
        core.registers.readAll (Operation.fmadd.sources o) = .ok [a, b, c] →
        execute primitives .fmadd o core =
          write .float o.rd (toWord y) { core with state := core.state ∪ f } := by
  obtain ⟨y, f, hfused, hsteps⟩ := exists_fused_of_exact a b c hexact
  refine ⟨y, f, congrArg (Except.map _) hfused, fun o core hwords => ?_⟩
  have hresult : Operation.fmadd.result primitives [a, b, c] = collect (toWord y, f) := hsteps
  simp only [execute_apply, hwords, hresult]
  rfl

/-- One and a half times two is exact, and the eighth of a unit in the last place that is added is
rounded away. -/
theorem execute_fmadd_of_exact_three :
    (primitives.mul 0x3fc00000 0x40000000 ∅).2.inexact = false ∧
      ∃ y f,
        (default : Environment).run (some .tiesToEven)
          (fun k => fusedMultiplyAdd k (ofWord 0x3fc00000) (ofWord 0x40000000)
            (ofWord 0x33000000)) = .ok (y, (default : Environment).raise f) ∧
        ∀ (o : Operands) (core : Core Flags),
          core.registers.readAll (Operation.fmadd.sources o) =
            .ok [0x3fc00000, 0x40000000, 0x33000000] →
          execute primitives .fmadd o core =
            write .float o.rd (toWord y) { core with state := core.state ∪ f } := by
  have hexact : (primitives.mul 0x3fc00000 0x40000000 ∅).2.inexact = false := by decide +kernel
  exact ⟨hexact, execute_fmadd_of_exact 0x3fc00000 0x40000000 0x33000000 hexact⟩

end Core
end HartFloat
