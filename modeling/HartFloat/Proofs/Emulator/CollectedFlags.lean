import HartFloat.Proofs.Emulator.Calls
import HartFloat.Proofs.Emulator.Failure

/-!
# Exceptions collected along a sequence of calls

The exact backend only ever adds to the exceptions that it has collected, and never looks at them.
Two emulators with the same registers, one of which has collected more than the other, therefore
stay apart by just that: this is a congruence of cores, and so no sequence of calls tells them
apart. What a sequence has collected is what was there before, united with what each of its calls
raises when it is made alone.
-/
namespace HartFloat

open Backend.Soft (primitives)

namespace Core

/-- The same registers, and the given exceptions collected besides those of the second core. -/
structure Ahead (s : Flags) (core core' : Core Flags) : Prop where
  registers_eq : core.registers = core'.registers
  state_eq : core.state = s ∪ core'.state

theorem Ahead.calculate {s : Flags} {core core' : Core Flags} (h : Ahead s core core')
    (op : Operation) (a b c : Word) :
    (op.compute primitives a b c core.state).1 = (op.compute primitives a b c core'.state).1 ∧
      (op.compute primitives a b c core.state).2 =
        s ∪ (op.compute primitives a b c core'.state).2 := by
  have hadds := Backend.Soft.accumulates_compute op a b c
  rw [h.state_eq, hadds (s ∪ core'.state), hadds core'.state]
  exact ⟨rfl, Flags.union_assoc _ _ _⟩

theorem congruence_ahead (s : Flags) : Congruence primitives (Ahead s) where
  read b i := by
    intro core core' h
    rw [read_apply, read_apply, h.registers_eq]
    exact ⟨rfl, h⟩
  write b i w := by
    intro core core' h
    rw [write_apply, write_apply, h.registers_eq]
    cases core'.registers.write b i w with
    | error f => exact ⟨rfl, h⟩
    | ok registers => exact ⟨rfl, rfl, h.state_eq⟩
  calculate op a b c := by
    intro core core' h
    obtain ⟨hword, hstate⟩ := h.calculate op a b c
    rw [calculate_apply, calculate_apply, hword]
    exact ⟨rfl, h.registers_eq, hstate⟩
  reset := by
    intro core core' h
    exact ⟨rfl, congrArg RegisterFile.reset h.registers_eq, h.state_eq⟩

end Core

/-- The operation that a call asks for, with its operands, if it asks for a single one. -/
def Call.request? : Call → Option (Operation × Operands)
  | .execute op o => some (op, o)
  | .executeIndex i o => (Operation.ofIndex i).toOption.map (·, o)
  | .emulate d => some (d.operation, d.operands)
  | .trap w => (Instruction.decode w).map fun d => (d.operation, d.operands)
  | .read _ _ | .write _ _ _ | .run _ | .resetRegisters | .reset => none

theorem Flags.contains_union_left (f g : Flags) : (f ∪ g).contains f = true := by
  rw [Flags.contains, decide_eq_true_eq, Flags.union_assoc, Flags.union_comm g, ← Flags.union_assoc,
    Flags.union_self]

namespace Emulator

/-- The emulator as it would be if its backend had collected the given exceptions. -/
def withFlags (e : Emulator Flags) (s : Flags) : Emulator Flags := { e with core.state := s }

/-- The exceptions that a call raises alone, with the same registers over a backend that has
collected nothing. -/
def raised (c : Call) (e : Emulator Flags) : Flags :=
  primitives.flags (call primitives c (e.withFlags ∅)).2.core.state

/-- The exceptions that the calls of a sequence raise, each of them alone. -/
def raisedAlong : List Call → Emulator Flags → Flags
  | [], _ => ∅
  | c :: cs, e => raised c e ∪ raisedAlong cs (call primitives c e).2

variable {σ : Type} {e : Emulator Flags} {s : Flags}

theorem related_withFlags_empty (e : Emulator Flags) (s : Flags) :
    Related (Core.Ahead s) (e.withFlags s) (e.withFlags ∅) :=
  ⟨⟨rfl, (Flags.union_empty s).symm⟩, rfl⟩

theorem state_call (c : Call) (e : Emulator Flags) :
    (call primitives c e).2.core.state = e.core.state ∪ raised c e := by
  have h := respects_call (Core.congruence_ahead e.core.state) c
    (related_withFlags_empty e e.core.state)
  exact h.2.core.state_eq

theorem state_callAll (cs : List Call) (e : Emulator Flags) :
    (callAll primitives cs e).2.core.state = e.core.state ∪ raisedAlong cs e := by
  induction cs generalizing e with
  | nil => exact (Flags.union_empty e.core.state).symm
  | cons c cs ih =>
    calc (callAll primitives (c :: cs) e).2.core.state
        = (call primitives c e).2.core.state ∪ raisedAlong cs (call primitives c e).2 := ih _
      _ = e.core.state ∪ raised c e ∪ raisedAlong cs (call primitives c e).2 := by
        rw [state_call]
      _ = e.core.state ∪ raisedAlong (c :: cs) e := Flags.union_assoc _ _ _

theorem callAll_append (P : Primitives σ) (before after : List Call) (e : Emulator σ) :
    callAll P (before ++ after) e =
      ((callAll P before e).1 ++ (callAll P after (callAll P before e).2).1,
        (callAll P after (callAll P before e).2).2) := by
  induction before generalizing e with
  | nil => rfl
  | cons c cs ih =>
    rcases hc : call P c e with ⟨answer, e'⟩
    simp only [List.cons_append, callAll, hc, ih]

/-- Collected exceptions have no influence on the answers, the registers and the statistics. -/
theorem callAll_withFlags (cs : List Call) (e : Emulator Flags) (s : Flags) :
    (callAll primitives cs (e.withFlags s)).1 = (callAll primitives cs (e.withFlags ∅)).1 ∧
      (callAll primitives cs (e.withFlags s)).2.core.registers =
        (callAll primitives cs (e.withFlags ∅)).2.core.registers ∧
      (callAll primitives cs (e.withFlags s)).2.statistics =
        (callAll primitives cs (e.withFlags ∅)).2.statistics := by
  obtain ⟨hanswers, hdone⟩ :=
    callAll_congr (Core.congruence_ahead s) cs (related_withFlags_empty e s)
  exact ⟨hanswers, hdone.core.registers_eq, hdone.statistics_eq⟩

theorem snd_bind_pure {τ α β : Type} (x : ExceptT Failure (StateM τ) α) (f : α → β) (t : τ) :
    ((x >>= fun a => pure (f a)) t).2 = (x t).2 := by
  rw [bind_apply]
  rcases x t with ⟨_ | _, _⟩ <;> rfl

theorem core_emulate (P : Primitives σ) (d : Decoded) (e : Emulator σ) :
    (emulate P d e).2.core = (Core.execute P d.operation d.operands e.core).2 := by
  rw [emulate_apply]
  rcases Core.execute P d.operation d.operands e.core with ⟨_ | _, _⟩ <;> rfl

theorem core_call_of_request {P : Primitives σ} {c : Call} {op : Operation} {o : Operands}
    (h : c.request? = some (op, o)) (e : Emulator σ) :
    (call P c e).2.core = (Core.execute P op o e.core).2 := by
  cases c with
  | read | write | run | resetRegisters | reset => cases h
  | execute op' o' =>
    cases h
    rw [call, snd_bind_pure]
    rfl
  | executeIndex i o' =>
    simp only [Call.request?, Option.map_eq_some_iff, Prod.mk.injEq] at h
    obtain ⟨op', hop, rfl, rfl⟩ := h
    have hi : Operation.ofIndex i = .ok op' := by
      cases hi : Operation.ofIndex i with
      | error f => simp [hi, Except.toOption] at hop
      | ok op'' => simpa [hi, Except.toOption] using hop
    rw [call, snd_bind_pure, onCore_apply, Core.executeIndex_apply, hi]
  | emulate d =>
    cases h
    rw [call, snd_bind_pure, core_emulate]
  | trap w =>
    simp only [Call.request?, Option.map_eq_some_iff, Prod.mk.injEq] at h
    obtain ⟨d, hd, rfl, rfl⟩ := h
    rw [call, snd_bind_pure, trap_apply, hd]
    exact core_emulate P d e

/-- What an operation raises alone depends on its operand values and on nothing else. -/
theorem raised_of_request {c : Call} {op : Operation} {o : Operands} {words : List Word}
    (hc : c.request? = some (op, o))
    (hr : e.core.registers.readAll (op.sources o) = .ok words) :
    raised c e = (op.result primitives words ∅).2 := by
  rw [raised, core_call_of_request hc]
  refine Core.state_execute ?_
  exact hr

/-- Over any sequence of calls the collected exceptions are those from before, united with what each
call raises alone, for a single operation what its operand values call for in a backend that has
collected nothing. None is ever lost, not even by a reset, and neither the answers nor the
registers nor the statistics depend on what had been collected at the start. -/
theorem callAll_collects (e : Emulator Flags) (calls : List Call) :
    primitives.flags (callAll primitives calls e).2.core.state =
        primitives.flags e.core.state ∪ raisedAlong calls e ∧
      (∀ before after, calls = before ++ after →
        (primitives.flags (callAll primitives calls e).2.core.state).contains
          (primitives.flags (callAll primitives before e).2.core.state) = true) ∧
      (∀ s, (callAll primitives calls (e.withFlags s)).1 = (callAll primitives calls e).1 ∧
        (callAll primitives calls (e.withFlags s)).2.core.registers =
          (callAll primitives calls e).2.core.registers ∧
        (callAll primitives calls (e.withFlags s)).2.statistics =
          (callAll primitives calls e).2.statistics) ∧
      ∀ c op o words, c.request? = some (op, o) →
        e.core.registers.readAll (op.sources o) = .ok words →
        raised c e = (op.result primitives words ∅).2 := by
  refine ⟨state_callAll calls e, ?_, fun s => ?_, fun c op o words => raised_of_request⟩
  · rintro before after rfl
    rw [callAll_append]
    have hafter := state_callAll after (callAll primitives before e).2
    change Flags.contains (callAll primitives after (callAll primitives before e).2).2.core.state
      (callAll primitives before e).2.core.state = true
    rw [hafter]
    exact Flags.contains_union_left _ _
  · obtain ⟨hanswers, hregisters, hstatistics⟩ := callAll_withFlags calls e s
    obtain ⟨hanswers', hregisters', hstatistics'⟩ := callAll_withFlags calls e e.core.state
    exact ⟨hanswers.trans hanswers'.symm, hregisters.trans hregisters'.symm,
      hstatistics.trans hstatistics'.symm⟩

/-- A division of zero by zero, then a reset, over a backend that has collected inexact. -/
theorem callAll_collects_division :
    let e : Emulator Flags := ⟨⟨.allocate {}, Flags.nx⟩, {}⟩
    let calls : List Call := [.execute .fdiv { rd := 1 }, .reset]
    primitives.flags (callAll primitives calls e).2.core.state = Flags.nx ∪ Flags.nv ∧
      calls = [.execute .fdiv { rd := 1 }] ++ [.reset] ∧
      (primitives.flags (callAll primitives calls e).2.core.state).contains
        (primitives.flags (callAll primitives [.execute .fdiv { rd := 1 }] e).2.core.state) =
          true ∧
      (Call.execute .fdiv { rd := 1 }).request? = some (.fdiv, { rd := 1 }) ∧
      e.core.registers.readAll (Operation.fdiv.sources { rd := 1 }) = .ok [0, 0] ∧
      raised (.execute .fdiv { rd := 1 }) e = Flags.nv := by
  intro e calls
  obtain ⟨hcollected, hkept, -, hraised⟩ := callAll_collects e calls
  have hwords : e.core.registers.readAll (Operation.fdiv.sources { rd := 1 }) = .ok [0, 0] := by
    decide +kernel
  have hnv : (Operation.fdiv.result primitives [0, 0] ∅).2 = Flags.nv := by decide +kernel
  have halong : raisedAlong calls e = Flags.nv := by decide +kernel
  refine ⟨?_, rfl, hkept _ _ rfl, rfl, hwords, (hraised _ _ _ _ rfl hwords).trans hnv⟩
  rw [hcollected, halong]
  rfl

end Emulator
end HartFloat
