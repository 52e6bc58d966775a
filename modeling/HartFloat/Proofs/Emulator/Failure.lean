import HartFloat.Proofs.Backend.Accumulation
import HartFloat.Proofs.Emulator.Run

/-!
# What a failed request leaves behind

A request that fails is not counted and changes no register. The exact backend is not told of the
failure: where the sources could be read, the exceptions of the operation have been collected
before the destination is found to be missing, and they stay collected.
-/
namespace HartFloat

open Backend.Soft (primitives)

variable {op : Operation} {o : Operands}

/-- What an operation that fails leaves behind on a core with the exact backend. -/
structure Core.FailureTrace (op : Operation) (o : Operands) (core core' : Core Flags) : Prop where
  registers_eq : core'.registers = core.registers
  flags_of_unreadable : ∀ f, core.registers.readAll (op.sources o) = .error f →
    primitives.flags core'.state = primitives.flags core.state
  flags_of_readable : ∀ words, core.registers.readAll (op.sources o) = .ok words →
    primitives.flags core'.state = primitives.flags core.state ∪ (op.result primitives words ∅).2

theorem Core.failureTrace_execute {core : Core Flags} {f : Failure}
    (h : (Core.execute primitives op o core).1 = .error f) :
    Core.FailureTrace op o core (Core.execute primitives op o core).2 := by
  refine ⟨Core.registers_of_error h, fun g hr => ?_, fun words hr => ?_⟩ <;>
    have hx := Core.executed primitives op o core <;>
    generalize Core.execute primitives op o core = outcome at hx h ⊢
  · cases hx with
    | unreadable _ => rfl
    | unwritable hr' _ => simp [hr] at hr'
    | written hr' _ => simp [hr] at hr'
  · cases hx with
    | unreadable hr' => simp [hr] at hr'
    | unwritable hr' _ =>
      rw [hr] at hr'
      cases hr'
      change (op.result primitives words core.state).2 = _
      rw [Operation.result, Backend.Soft.accumulates_compute op _ _ _ core.state]
      rfl
    | written _ _ => cases h

theorem Core.failureTrace_executeIndex {core : Core Flags} {i : ℕ} {f : Failure}
    (h : (Core.executeIndex primitives i o core).1 = .error f) :
    (Operation.ofIndex i = .error f ∧ (Core.executeIndex primitives i o core).2 = core) ∨
      ∃ op, Operation.ofIndex i = .ok op ∧
        Core.FailureTrace op o core (Core.executeIndex primitives i o core).2 := by
  rw [Core.executeIndex_apply] at h ⊢
  cases hi : Operation.ofIndex i with
  | error g =>
    simp only [hi] at h
    exact .inl ⟨h, rfl⟩
  | ok op =>
    simp only [hi, map_eq_error_iff] at h
    exact .inr ⟨op, rfl, Core.failureTrace_execute h⟩

namespace Emulator

theorem onCore_apply {σ α : Type} (step : CoreM σ α) (e : Emulator σ) :
    onCore step e = ((step e.core).1, { e with core := (step e.core).2 }) := rfl

theorem emulate_of_error {σ : Type} {P : Primitives σ} {d : Decoded} {e : Emulator σ} {f : Failure}
    (h : (emulate P d e).1 = .error f) :
    (Core.execute P d.operation d.operands e.core).1 = .error f ∧
      (emulate P d e).2 =
        { e with core := (Core.execute P d.operation d.operands e.core).2 } := by
  rw [emulate_apply] at h ⊢
  generalize Core.execute P d.operation d.operands e.core = outcome at h ⊢
  obtain ⟨_ | _, core⟩ := outcome
  · exact ⟨h, rfl⟩
  · cases h

/-- A failed request leaves the statistics and the registers as they were. The exceptions collected
are those from before if the operation is unknown or a source cannot be read; if only the
destination is missing, the operation's exceptions have been added to them. -/
theorem failed_request_leaves (e : Emulator Flags) :
    (∀ op o f, (onCore (Core.execute primitives op o) e).1 = .error f →
      (onCore (Core.execute primitives op o) e).2.statistics = e.statistics ∧
        Core.FailureTrace op o e.core (onCore (Core.execute primitives op o) e).2.core) ∧
    (∀ i o f, (onCore (Core.executeIndex primitives i o) e).1 = .error f →
      (onCore (Core.executeIndex primitives i o) e).2.statistics = e.statistics ∧
        (Operation.ofIndex i = .error f ∧
            (onCore (Core.executeIndex primitives i o) e).2.core = e.core ∨
          ∃ op, Operation.ofIndex i = .ok op ∧
            Core.FailureTrace op o e.core (onCore (Core.executeIndex primitives i o) e).2.core)) ∧
    ∀ d f, (emulate primitives d e).1 = .error f →
      (emulate primitives d e).2.statistics = e.statistics ∧
        Core.FailureTrace d.operation d.operands e.core (emulate primitives d e).2.core := by
  simp only [onCore_apply]
  refine ⟨fun op o f h => ⟨trivial, Core.failureTrace_execute h⟩,
    fun i o f h => ⟨trivial, Core.failureTrace_executeIndex h⟩, fun d f h => ?_⟩
  obtain ⟨hcore, heq⟩ := emulate_of_error h
  rw [heq]
  exact ⟨rfl, Core.failureTrace_execute hcore⟩

/-- Division of zero by zero into a register that does not exist. -/
theorem failed_request_leaves_division :
    let e : Emulator Flags := ⟨⟨.allocate {}, ∅⟩, {}⟩
    let d : Decoded := ⟨0, .fdiv, { rd := 32 }⟩
    (emulate primitives d e).1 = .error (.registerIndex .float 32) ∧
      (emulate primitives d e).2.statistics = e.statistics ∧
      primitives.flags (emulate primitives d e).2.core.state = ∅ ∪ Flags.nv := by
  have h : (emulate primitives ⟨0, .fdiv, { rd := 32 }⟩ ⟨⟨.allocate {}, ∅⟩, {}⟩).1 =
      .error (.registerIndex .float 32) := by decide +kernel
  obtain ⟨hstat, htrace⟩ := (failed_request_leaves _).2.2 _ _ h
  have hwords : (RegisterFile.allocate {}).readAll (Operation.fdiv.sources { rd := 32 }) =
      .ok [0, 0] := by decide +kernel
  have hnv : (Operation.fdiv.result primitives [0, 0] ∅).2 = Flags.nv := by decide +kernel
  exact ⟨h, hstat, (htrace.flags_of_readable _ hwords).trans (by rw [hnv]; rfl)⟩

/-- Exceptions of an operation whose result cannot be written are not taken back. -/
theorem failed_division_keeps_invalid :
    ¬ ∀ (l : Layout) (op : Operation) (o : Operands) (core : Core Flags),
      Core.Reachable primitives l core → ∀ f, (Core.execute primitives op o core).1 = .error f →
        primitives.flags (Core.execute primitives op o core).2.state =
          primitives.flags core.state := by
  intro h
  have hflags := h {} .fdiv { rd := 32 } ⟨.allocate {}, ∅⟩ (.create rfl)
    (.registerIndex .float 32) (by decide +kernel)
  revert hflags
  decide +kernel

end Emulator
end HartFloat
