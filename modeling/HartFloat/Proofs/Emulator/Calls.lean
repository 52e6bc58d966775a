import HartFloat.Proofs.Emulator.Run

/-!
# Sequences of calls, and states that they cannot tell apart

A sequence of calls is answered call by call, also when some of them fail. A relation between cores
is a congruence when reading and writing registers, computing an operation and resetting give equal
answers in related cores and lead to related cores again. Then so does every call to an emulator,
and any sequence of calls gets the same answers from emulators with related cores.
-/
namespace HartFloat

/-- What an emulator can be asked for. -/
inductive Call
  | read (b : Bank) (i : ℕ)
  | write (b : Bank) (i : ℕ) (w : Word)
  | execute (op : Operation) (o : Operands)
  | executeIndex (i : ℕ) (o : Operands)
  | emulate (d : Decoded)
  | trap (w : Word)
  | run (ws : List Word)
  | resetRegisters
  | reset

/-- What a call that succeeds answers. -/
inductive Answer
  | done
  | word (w : Word)
  | operation (op? : Option Operation)
  | count (n : ℕ)
  deriving DecidableEq

namespace Emulator

variable {σ : Type}

def call (P : Primitives σ) : Call → EmulatorM σ Answer
  | .read b i => do return .word (← onCore (Core.read b i))
  | .write b i w => do onCore (Core.write b i w); return .done
  | .execute op o => do onCore (Core.execute P op o); return .done
  | .executeIndex i o => do return .operation (some (← onCore (Core.executeIndex P i o)))
  | .emulate d => do emulate P d; return .done
  | .trap w => do return .operation (← trap P w)
  | .run ws => do return .count (← run P ws)
  | .resetRegisters => do onCore Core.reset; return .done
  | .reset => do reset; return .done

/-- Makes the calls one after the other, each in the state that the one before has left. -/
def callAll (P : Primitives σ) :
    List Call → Emulator σ → List (Except Failure Answer) × Emulator σ
  | [], e => ([], e)
  | c :: cs, e =>
    let (answer, e') := call P c e
    let (answers, e'') := callAll P cs e'
    (answer :: answers, e'')

end Emulator

section Respects

variable {τ α β : Type} {R : τ → τ → Prop}

/-- In related states the step gives the same answer, and it leads to related states. -/
def Respects (R : τ → τ → Prop) (step : ExceptT Failure (StateM τ) α) : Prop :=
  ∀ ⦃t t'⦄, R t t' → (step t).1 = (step t').1 ∧ R (step t).2 (step t').2

theorem respects_pure (a : α) : Respects R (pure a) := fun _ _ h => ⟨rfl, h⟩

theorem Respects.bind {x : ExceptT Failure (StateM τ) α} {f : α → ExceptT Failure (StateM τ) β}
    (hx : Respects R x) (hf : ∀ a, Respects R (f a)) : Respects R (x >>= f) := by
  intro t t' h
  obtain ⟨hanswer, hstate⟩ := hx h
  rw [bind_apply, bind_apply]
  rcases hxt : x t with ⟨r, u⟩
  rcases hxt' : x t' with ⟨r', u'⟩
  rw [hxt, hxt'] at hanswer hstate
  dsimp only at hanswer hstate
  subst hanswer
  cases r with
  | error f => exact ⟨rfl, hstate⟩
  | ok a => exact hf a hstate

end Respects

variable {σ : Type} {P : Primitives σ} {R : Core σ → Core σ → Prop}

namespace Core

/-- The steps that operations consist of respect the relation, and so does a reset. -/
structure Congruence (P : Primitives σ) (R : Core σ → Core σ → Prop) : Prop where
  read : ∀ b i, Respects R (Core.read b i)
  write : ∀ b i w, Respects R (Core.write b i w)
  calculate : ∀ (op : Operation) a b c, Respects R (Core.calculate (op.compute P a b c))
  reset : Respects R Core.reset

theorem Congruence.perform (h : Congruence P R) {sources : List (Bank × ℕ)} {d : Bank × ℕ}
    {run : List Word → StateM σ Word} (hrun : ∀ words, Respects R (Core.calculate (run words))) :
    Respects R (Core.perform sources d run) := by
  induction sources generalizing run with
  | nil =>
    have hx : Core.calculate (run []) >>= Core.write d.1 d.2 = Core.perform [] d run :=
      funext fun _ => Core.calculate_bind_eq_perform (run []) id
    rw [← hx]
    exact (hrun []).bind fun r => h.write _ _ r
  | cons s rest ih =>
    have hx : (Core.read s.1 s.2 >>= fun a => Core.perform rest d fun words => run (a :: words)) =
        Core.perform (s :: rest) d run :=
      funext fun _ => Core.read_bind_eq_perform fun _ => rfl
    rw [← hx]
    exact (h.read _ _).bind fun a => ih fun words => hrun (a :: words)

theorem Congruence.execute (h : Congruence P R) (op : Operation) (o : Operands) :
    Respects R (Core.execute P op o) := by
  have hx : Core.execute P op o = Core.perform (op.sources o) (op.destination o) (op.result P) :=
    funext (Core.execute_apply P op o)
  rw [hx]
  exact h.perform fun words => h.calculate op _ _ _

theorem Congruence.executeIndex (h : Congruence P R) (i : ℕ) (o : Operands) :
    Respects R (Core.executeIndex P i o) := by
  intro core core' hR
  rw [executeIndex_apply, executeIndex_apply]
  cases Operation.ofIndex i with
  | error f => exact ⟨rfl, hR⟩
  | ok op =>
    obtain ⟨hanswer, hstate⟩ := h.execute op o hR
    exact ⟨congrArg (Except.map fun _ => op) hanswer, hstate⟩

end Core

namespace Emulator

/-- The cores are related, and the same has been counted. -/
structure Related (R : Core σ → Core σ → Prop) (e e' : Emulator σ) : Prop where
  core : R e.core e'.core
  statistics_eq : e.statistics = e'.statistics

theorem respects_onCore {α : Type} {step : CoreM σ α} (h : Respects R step) :
    Respects (Related R) (onCore step) := fun _ _ he =>
  ⟨(h he.core).1, (h he.core).2, he.statistics_eq⟩

theorem respects_count (f : Statistics → Statistics) :
    Respects (Related R)
      (modify fun e => { e with statistics := f e.statistics } : EmulatorM σ Unit) := fun _ _ he =>
  ⟨rfl, he.core, congrArg f he.statistics_eq⟩

theorem respects_emulate (h : Core.Congruence P R) (d : Decoded) :
    Respects (Related R) (emulate P d) :=
  (respects_onCore (h.execute _ _)).bind fun _ => respects_count (·.record d.operation)

theorem respects_trap (h : Core.Congruence P R) (w : Word) : Respects (Related R) (trap P w) := by
  unfold trap
  cases Instruction.decode w with
  | none =>
    refine Respects.bind ?_ fun _ => respects_pure none
    exact respects_count fun s => { s with notTrapped := s.notTrapped + 1 }
  | some d => exact (respects_emulate h d).bind fun _ => respects_pure _

theorem respects_run (h : Core.Congruence P R) (ws : List Word) :
    Respects (Related R) (run P ws) := by
  induction ws with
  | nil => exact respects_pure 0
  | cons w ws ih => exact (respects_trap h w).bind fun _ => ih.bind fun _ => respects_pure _

theorem respects_reset (h : Core.Congruence P R) :
    Respects (Related R) (reset : EmulatorM σ Unit) :=
  (respects_onCore h.reset).bind fun _ => respects_count fun _ => {}

theorem respects_call (h : Core.Congruence P R) (c : Call) :
    Respects (Related R) (call P c) := by
  cases c with
  | read b i => exact (respects_onCore (h.read b i)).bind fun _ => respects_pure _
  | write b i w => exact (respects_onCore (h.write b i w)).bind fun _ => respects_pure _
  | execute op o => exact (respects_onCore (h.execute op o)).bind fun _ => respects_pure _
  | executeIndex i o => exact (respects_onCore (h.executeIndex i o)).bind fun _ => respects_pure _
  | emulate d => exact (respects_emulate h d).bind fun _ => respects_pure _
  | trap w => exact (respects_trap h w).bind fun _ => respects_pure _
  | run ws => exact (respects_run h ws).bind fun _ => respects_pure _
  | resetRegisters => exact (respects_onCore h.reset).bind fun _ => respects_pure _
  | reset => exact (respects_reset h).bind fun _ => respects_pure _

/-- No sequence of calls tells emulators apart whose cores a congruence relates. -/
theorem callAll_congr (h : Core.Congruence P R) (cs : List Call) {e e' : Emulator σ}
    (he : Related R e e') :
    (callAll P cs e).1 = (callAll P cs e').1 ∧
      Related R (callAll P cs e).2 (callAll P cs e').2 := by
  induction cs generalizing e e' with
  | nil => exact ⟨rfl, he⟩
  | cons c cs ih =>
    obtain ⟨hanswer, hstate⟩ := respects_call h c he
    obtain ⟨hanswers, hstates⟩ := ih hstate
    exact ⟨congrArg₂ List.cons hanswer hanswers, hstates⟩

end Emulator
end HartFloat
