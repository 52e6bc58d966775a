import HartFloat.Backend
import HartFloat.Proofs.Backend.Accumulation
import HartFloat.Proofs.Backend.Agreement

/-!
# What operations write

An operation with known words in its sources writes the word that it computes from them. Unless a
backend may choose a NaN for it, that is on either backend the word that the exact one computes when
it has collected nothing; the exact backend moreover adds the exceptions of the computation to those
it has collected.
-/
namespace HartFloat

variable {σ τ : Type} {P : Primitives σ} {op : Operation} {words : List Word} {w : Word}

namespace Backend

/-- What a backend keeps: the exceptions collected, or what the machine keeps. -/
def State (τ : Type) : Backend → Type
  | soft => Flags
  | host => τ

def primitives (nan : Host.NaNChoice τ) : (k : Backend) → Primitives (k.State τ)
  | soft => Soft.primitives
  | host => Host.primitives nan

end Backend

namespace Primitives

/-- With the given words in its sources the operation goes on to write the word to its
destination. -/
def Writes (P : Primitives σ) (op : Operation) (words : List Word) (w : Word) : Prop :=
  ∀ (o : Operands) (core : Core σ), core.registers.readAll (op.sources o) = .ok words →
    ∃ state, Core.execute P op o core =
      Core.write (op.destination o).1 (op.destination o).2 w { core with state }

theorem writes_of_result (h : ∀ s, (op.result P words s).1 = w) : P.Writes op words w := by
  intro o core hwords
  refine ⟨(op.result P words core.state).2, ?_⟩
  rw [Core.execute_apply, hwords]
  dsimp only
  rw [h]

theorem Writes.read_destination (h : P.Writes op words w) {o : Operands} {core : Core σ}
    (hwords : core.registers.readAll (op.sources o) = .ok words) (hf : core.registers.Fits)
    (ha : core.registers.layout.Aligned) (hd : (op.destination o).2 < registerCount) :
    ∃ core', Core.execute P op o core = (.ok (), core') ∧
      core'.registers.read (op.destination o).1 (op.destination o).2 = .ok w := by
  obtain ⟨state, hstate⟩ := h o core hwords
  obtain ⟨registers, hwrite⟩ := (hf.exists_write_iff (w := w)).mpr ⟨hd, ha (op.destination o).1⟩
  refine ⟨⟨registers, state⟩, ?_, RegisterFile.read_write_same hwrite⟩
  rw [hstate, Core.write_apply, hwrite]

end Primitives

namespace Backend

/-- What the exact backend computes is written on either backend. -/
theorem writes_of_result (nan : Host.NaNChoice τ) (k : Backend) (hop : op ∉ Operation.arithmetic)
    (h : (op.result Soft.primitives words ∅).1 = w) : (k.primitives nan).Writes op words w := by
  cases k with
  | soft =>
    refine Primitives.writes_of_result fun s => ?_
    have hcompute := Soft.accumulates_compute op (words.getD 0 0) (words.getD 1 0)
      (words.getD 2 0) s
    exact (congrArg Prod.fst hcompute).trans h
  | host =>
    refine Primitives.writes_of_result fun s => ?_
    rcases (primitives_agree nan).compute op (words.getD 0 0) (words.getD 1 0) (words.getD 2 0) ∅ s
      with heq | ⟨hmem, -⟩
    · exact heq.symm.trans h
    · exact absurd hmem hop

end Backend

namespace Backend.Soft

/-- With the given words in its sources the operation goes on to write the word to its
destination, and adds the exceptions to those collected. -/
def Performs (op : Operation) (words : List Word) (w : Word) (f : Flags) : Prop :=
  ∀ (o : Operands) (core : Core Flags), core.registers.readAll (op.sources o) = .ok words →
    Core.execute primitives op o core =
      Core.write (op.destination o).1 (op.destination o).2 w { core with state := core.state ∪ f }

theorem performs_of_result {f : Flags} (h : ∀ s, op.result primitives words s = (w, s ∪ f)) :
    Performs op words w f := by
  intro o core hwords
  rw [Core.execute_apply, hwords]
  dsimp only
  rw [h]

end Backend.Soft
end HartFloat
