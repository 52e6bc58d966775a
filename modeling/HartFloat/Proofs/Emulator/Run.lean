import HartFloat.Emulator
import HartFloat.Proofs.Core.Execution
import HartFloat.Proofs.Instruction.Formats

/-!
# Runs of the emulator

A run handles its words one after the other. The register numbers in an instruction are five bits
wide, so in an acceptable layout with word-aligned bases no word ever fails, and each word changes
at most the register that it names as its destination.
-/
namespace HartFloat

/-- The register that a word may change, if it is an instruction. -/
def Instruction.target? (w : Word) : Option (Bank × ℕ) :=
  (decode w).map fun d =>
    if d.operation.writesReturn then (.integer, returnRegister) else (.float, w.bits 7 5)

namespace Instruction

variable {w : Word} {d : Decoded}

theorem target?_eq_of_decode (h : decode w = some d) :
    target? w = some (d.operation.destination d.operands) := by
  obtain ⟨-, ho, -⟩ := decode_eq_some_iff.mp h
  have hrd : d.operands.rd = w.bits 7 5 := by
    rw [ho]
    rfl
  rw [target?, h, Option.map_some, Operation.destination, hrd]

theorem register_lt_of_decode (h : decode w = some d) :
    ∀ s ∈ d.operation.destination d.operands :: d.operation.sources d.operands,
      s.2 < registerCount := by
  obtain ⟨hs₁, hs₂, hs₃, hd, -⟩ := admits_of_decode h
  replace hs₂ : d.operands.rs2 < 32 := by
    split at hs₂ <;> omega
  replace hs₃ : d.operands.rs3 < 32 := by
    split at hs₃ <;> omega
  intro s hs
  rcases List.mem_cons.mp hs with rfl | hs
  · unfold Operation.destination
    split
    · decide
    · exact hd
  · have hmem := List.mem_of_mem_take hs
    simp only [List.mem_cons, List.not_mem_nil, or_false] at hmem
    rcases hmem with rfl | rfl | rfl
    exacts [hs₁, hs₂, hs₃]

end Instruction

namespace Emulator

variable {σ : Type} {P : Primitives σ} {l : Layout} {e : Emulator σ} {w : Word}

theorem emulate_apply (P : Primitives σ) (d : Decoded) (e : Emulator σ) :
    emulate P d e =
      match Core.execute P d.operation d.operands e.core with
      | (.ok _, core) => (.ok (), { core, statistics := e.statistics.record d.operation })
      | (.error f, core) => (.error f, { e with core }) := by
  unfold emulate
  rw [bind_apply]
  unfold onCore
  rcases Core.execute P d.operation d.operands e.core with ⟨_ | _, _⟩ <;> rfl

theorem trap_apply (P : Primitives σ) (w : Word) (e : Emulator σ) :
    trap P w e =
      match Instruction.decode w with
      | some d => ((emulate P d e).1.map fun _ => some d.operation, (emulate P d e).2)
      | none =>
        (.ok none, { e with statistics.notTrapped := e.statistics.notTrapped + 1 }) := by
  unfold trap
  cases Instruction.decode w with
  | none => rfl
  | some d =>
    change (emulate P d >>= fun _ => pure (some d.operation)) e =
      ((emulate P d e).1.map fun _ => some d.operation, (emulate P d e).2)
    rw [bind_apply]
    rcases emulate P d e with ⟨_ | _, _⟩ <;> rfl

@[simp] theorem run_nil (P : Primitives σ) (e : Emulator σ) : run P [] e = (.ok 0, e) := rfl

theorem run_cons (P : Primitives σ) (w : Word) (ws : List Word) (e : Emulator σ) :
    run P (w :: ws) e =
      match trap P w e with
      | (.ok op?, e') =>
        ((run P ws e').1.map (· + if op?.isSome then 1 else 0), (run P ws e').2)
      | (.error f, e') => (.error f, e') := by
  rw [run, bind_apply]
  rcases trap P w e with ⟨_ | op?, e'⟩
  · rfl
  · change (run P ws >>= fun rest => pure (rest + if op?.isSome then 1 else 0)) e' =
      ((run P ws e').1.map (· + if op?.isSome then 1 else 0), (run P ws e').2)
    rw [bind_apply]
    rcases run P ws e' with ⟨_ | _, _⟩ <;> rfl

/-- A run can be interrupted and resumed. -/
theorem run_append (P : Primitives σ) (xs ys : List Word) (e : Emulator σ) :
    run P (xs ++ ys) e =
      match run P xs e with
      | (.ok n, e') => ((run P ys e').1.map (n + ·), (run P ys e').2)
      | (.error f, e') => (.error f, e') := by
  induction xs generalizing e with
  | nil =>
    rw [List.nil_append, run_nil]
    rcases hys : run P ys e with ⟨_ | _, _⟩ <;> simp [Except.map, hys]
  | cons w xs ih =>
    rw [List.cons_append, run_cons, run_cons]
    rcases trap P w e with ⟨_ | op?, e'⟩
    · rfl
    · simp only [ih]
      rcases run P xs e' with ⟨_ | n, e''⟩
      · rfl
      · simp only [Except.map]
        cases (run P ys e'').1 with
        | error f => rfl
        | ok m => simp only [Nat.add_right_comm]

theorem trap_of_aligned (hf : e.core.registers.Fits) (ha : e.core.registers.layout.Aligned)
    (P : Primitives σ) (w : Word) :
    ∃ e', trap P w e = (.ok ((Instruction.decode w).map (·.operation)), e') ∧
      e'.core.registers.Fits ∧ e'.core.registers.layout = e.core.registers.layout ∧
      ∀ b i, Instruction.target? w ≠ some (b, i) →
        e'.core.registers.read b i = e.core.registers.read b i := by
  rw [trap_apply]
  cases hd : Instruction.decode w with
  | none => exact ⟨_, rfl, hf, rfl, fun _ _ _ => rfl⟩
  | some d =>
    have hok := (Core.execute_eq_ok_iff_of_aligned (P := P) hf ha).mpr
      (Instruction.register_lt_of_decode hd)
    obtain ⟨hf', hl'⟩ := Core.fits_execute hf P d.operation d.operands
    have hother (b : Bank) (i : ℕ) (hne : (b, i) ≠ d.operation.destination d.operands) :=
      Core.read_execute_other (P := P) hf hne
    generalize hx : Core.execute P d.operation d.operands e.core = outcome at hok hf' hl' hother
    obtain ⟨_, core⟩ := outcome
    subst hok
    refine ⟨{ core, statistics := e.statistics.record d.operation }, ?_, hf', hl', ?_⟩
    · simp only [emulate_apply, hx]
      rfl
    · intro b i hne
      rw [Instruction.target?_eq_of_decode hd] at hne
      exact hother b i fun heq => hne (by rw [heq])

theorem run_of_aligned (hf : e.core.registers.Fits) (ha : e.core.registers.layout.Aligned)
    (P : Primitives σ) (ws : List Word) :
    ∃ n e', run P ws e = (.ok n, e') ∧ e'.core.registers.Fits ∧
      e'.core.registers.layout = e.core.registers.layout := by
  induction ws generalizing e with
  | nil => exact ⟨0, e, rfl, hf, rfl⟩
  | cons w ws ih =>
    obtain ⟨e', hw, hf', hl', -⟩ := trap_of_aligned hf ha P w
    obtain ⟨n, e'', hws, hf'', hl''⟩ := ih hf' (hl' ▸ ha)
    have hrun := run_cons P w ws e
    simp only [hw, hws] at hrun
    exact ⟨_, e'', hrun, hf'', hl''.trans hl'⟩

/-- In an accepted layout with word-aligned bases a run never fails, whatever the registers hold,
and each word of it changes at most the register that it names as its destination. -/
theorem run_never_fails (hl : l.validate = .ok ()) (ha : l.Aligned) (P : Primitives σ)
    (data : ∀ b, Vector (BitVec 8) (l.windowSize b)) (state : σ) (statistics : Statistics)
    (ws : List Word) :
    let e : Emulator σ := ⟨⟨.holding l data, state⟩, statistics⟩
    (∃ n, (run P ws e).1 = .ok n) ∧
      ∀ before w after, ws = before ++ w :: after →
        ∀ b i, Instruction.target? w ≠ some (b, i) →
          (run P (before ++ [w]) e).2.core.registers.read b i =
            (run P before e).2.core.registers.read b i := by
  intro e
  have hf : e.core.registers.Fits :=
    RegisterFile.fits_holding (Layout.validate_eq_ok_iff.mp hl) data
  obtain ⟨n, e', hws, -⟩ := run_of_aligned hf ha P ws
  refine ⟨⟨n, by rw [hws]⟩, fun before w after _ b i hne => ?_⟩
  obtain ⟨m, e₁, hbefore, hf₁, hl₁⟩ := run_of_aligned hf ha P before
  obtain ⟨e₂, hw, -, -, hother⟩ := trap_of_aligned hf₁ (hl₁ ▸ ha) P w
  rw [run_append, hbefore]
  simp only [run_cons, hw, run_nil]
  exact hother b i hne

/-- Two instructions with a word between them that is none, in the default layout. -/
theorem run_never_fails_three_words :
    let e : Emulator Flags := ⟨⟨.holding {} fun _ => .replicate _ 0, ∅⟩, {}⟩
    ({} : Layout).validate = .ok () ∧ ({} : Layout).Aligned ∧
      (∃ n, (run Backend.Soft.primitives [0xd00100d3, 0x02a00093, 0x001080d3] e).1 = .ok n) ∧
      (run Backend.Soft.primitives [0xd00100d3] e).2.core.registers.read .float 2 =
        e.core.registers.read .float 2 := by
  have hl : ({} : Layout).validate = .ok () := by decide
  have h := run_never_fails hl Layout.aligned_default Backend.Soft.primitives
    (fun _ => .replicate _ 0) ∅ {} [0xd00100d3, 0x02a00093, 0x001080d3]
  dsimp only at h ⊢
  have hread := h.2 [] 0xd00100d3 [0x02a00093, 0x001080d3] rfl .float 2 (by decide)
  simp only [List.nil_append, run_nil] at hread
  exact ⟨hl, Layout.aligned_default, h.1, hread⟩

end Emulator
end HartFloat
