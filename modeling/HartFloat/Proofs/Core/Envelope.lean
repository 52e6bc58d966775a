import HartFloat.Proofs.Arithmetic.Exceptions
import HartFloat.Proofs.Backend.Accumulation
import HartFloat.Proofs.Core.Execution
import HartFloat.Proofs.Word.Fields

/-!
# Which exceptions an operation can raise

For every operation there is an envelope that the exceptions it raises stay in, whatever words its
sources hold. Most of the moves raise nothing; comparisons and conversions raise a single exception
whose condition is known exactly; sums never underflow, and only a quotient can divide by zero.
-/
namespace HartFloat

open Backend.Soft

/-- What is known of the exceptions that an operation raises on the words in its first two
sources. -/
def Operation.Envelope (op : Operation) (a b : Word) (f : Flags) : Prop :=
  match op with
  | fadd | fsub => f.IsCoherent ∧ f.divisionByZero = false ∧ f.underflow = false
  | fmul => f.IsCoherent ∧ f.divisionByZero = false
  | fdiv =>
    f.IsCoherent ∧
      (f.divisionByZero = true ↔
        Classification.ofWord a ∈ [.negNormal, .negSubnormal, .posSubnormal, .posNormal] ∧
          Classification.ofWord b ∈ [.negZero, .posZero])
  | fmadd | fmsub | fnmadd | fnmsub => f.divisionByZero = false
  | feq =>
    (f = ∅ ∨ f = Flags.nv) ∧
      (f = Flags.nv ↔
        Classification.ofWord a = .signalingNaN ∨ Classification.ofWord b = .signalingNaN)
  | flt | fle =>
    (f = ∅ ∨ f = Flags.nv) ∧ (f = Flags.nv ↔ Word.isNaN a = true ∨ Word.isNaN b = true)
  | fcvtWS | fcvtWuS => f = ∅ ∨ f = Flags.nv ∨ f = Flags.nx
  | fcvtSW =>
    (f = ∅ ∨ f = Flags.nx) ∧ (f = Flags.nx ↔ (a.toInt : ℝ) ∉ Format.binary32.finiteValues)
  | fcvtSWu =>
    (f = ∅ ∨ f = Flags.nx) ∧ (f = Flags.nx ↔ (a.toNat : ℝ) ∉ Format.binary32.finiteValues)
  | fmin | fmax | fsgnj | fsgnjn | fsgnjx | fmvXW | fmvWX | fclass => f = ∅
  | fsqrt => True

namespace Backend.Soft

/-- The exceptions of a computation that starts from none satisfy the predicate. -/
def Raises {α : Type} (run : StateM Flags α) (p : Flags → Prop) : Prop := p (run ∅).2

theorem raises_collect {α : Type} {p : Flags → Prop} {r : α × Flags} (h : p r.2) :
    Raises (collect r) p := by
  change p (∅ ∪ r.2)
  rwa [Flags.empty_union]

theorem Raises.map {α β : Type} {p : Flags → Prop} {x : StateM Flags α} (hx : Raises x p)
    (g : α → β) : Raises (g <$> x) p := hx

theorem raises_binary {p : Flags → Prop} {op : Context → Single → Single → Outcome Single}
    {a b : Word} (h : ∃ z f, op nearest (ofWord a) (ofWord b) = .ok (z, f) ∧ p f) :
    Raises (binary op a b) p := by
  obtain ⟨z, f, hz, hp⟩ := h
  rw [binary, hz]
  exact (raises_collect hp).map toWord

theorem Raises.bind {α β : Type} {p q r : Flags → Prop} {x : StateM Flags α}
    {g : α → StateM Flags β} (hg : ∀ a, Accumulates (g a)) (hx : Raises x p)
    (hq : ∀ a, Raises (g a) q) (hr : ∀ f f', p f → q f' → r (f ∪ f')) : Raises (x >>= g) r := by
  change r (g (x ∅).1 (x ∅).2).2
  rw [hg]
  exact hr _ _ hx (hq _)

theorem raises_add (a b : Word) : Raises (primitives.add a b)
    fun f => f.IsCoherent ∧ f.divisionByZero = false ∧ f.underflow = false :=
  raises_binary (Pattern.flags_add Format.regular_binary32 rfl (by decide) rfl _ _)

theorem raises_sub (a b : Word) : Raises (primitives.sub a b)
    fun f => f.IsCoherent ∧ f.divisionByZero = false ∧ f.underflow = false :=
  raises_binary (Pattern.flags_sub Format.regular_binary32 rfl (by decide) rfl _ _)

theorem raises_mul (a b : Word) : Raises (primitives.mul a b)
    fun f => f.IsCoherent ∧ f.divisionByZero = false :=
  raises_binary (Pattern.flags_mul Format.regular_binary32 rfl (by decide) rfl _ _)

theorem raises_div (a b : Word) : Raises (primitives.div a b) (Operation.fdiv.Envelope a b) := by
  have hfinite : (ofWord a).isFinite = true ∧ (ofWord a).isZero = false ↔
      Classification.ofWord a ∈ [.negNormal, .negSubnormal, .posSubnormal, .posNormal] := by
    rw [Pattern.isFinite, Pattern.isZero, classify_ofWord]
    cases Classification.ofWord a <;> decide
  have hzero : (ofWord b).isZero = true ↔ Classification.ofWord b ∈ [.negZero, .posZero] := by
    rw [Pattern.isZero, classify_ofWord]
    cases Classification.ofWord b <;> decide
  refine raises_binary ?_
  obtain ⟨z, f, hz, hcoherent, hdz⟩ :=
    Pattern.flags_div (c := nearest) Format.regular_binary32 rfl (by decide) rfl (ofWord a)
      (ofWord b)
  exact ⟨z, f, hz, hcoherent, hdz.trans (and_congr hfinite hzero)⟩

theorem raises_fused {a b : Word} {next : Word → StateM Flags Word}
    (hadds : ∀ w, Accumulates (next w))
    (hnext : ∀ w, Raises (next w)
      fun f => f.IsCoherent ∧ f.divisionByZero = false ∧ f.underflow = false) :
    Raises (primitives.mul a b >>= next) fun f => f.divisionByZero = false := by
  refine Raises.bind hadds (raises_mul a b) hnext fun f f' hf hf' => ?_
  change (f.divisionByZero || f'.divisionByZero) = false
  rw [hf.2, hf'.2.1]
  rfl

theorem when_nv_cases (c : Bool) :
    (Flags.when c Flags.nv = ∅ ∨ Flags.when c Flags.nv = Flags.nv) ∧
      (Flags.when c Flags.nv = Flags.nv ↔ c = true) := by
  cases c <;> decide

theorem raises_compareQuiet (a b : Word) :
    Raises (primitives.compareQuiet a b) (Operation.feq.Envelope a b) := by
  refine raises_collect ?_
  obtain ⟨o, ho⟩ := Pattern.flags_compareQuiet (by decide) (ofWord a) (ofWord b)
  rw [ho, Operation.Envelope, ← isSignaling_ofWord, ← isSignaling_ofWord, ← Bool.or_eq_true]
  exact when_nv_cases _

theorem raises_compareSignaling (a b : Word) :
    Raises (primitives.compareSignaling a b) (Operation.flt.Envelope a b) := by
  refine raises_collect ?_
  obtain ⟨o, ho⟩ := Pattern.flags_compareSignaling (by decide) (ofWord a) (ofWord b)
  rw [ho, isNaN_ofWord, isNaN_ofWord, Operation.Envelope, ← Bool.or_eq_true]
  exact when_nv_cases _

theorem raises_pick (firstWhen : Ordering) (a b : Word) :
    Raises (Operation.pick primitives firstWhen a b) fun f => f = ∅ := by
  unfold Operation.pick
  split
  · rfl
  · rfl
  · rfl
  · next ha hb =>
    obtain ⟨hcases, hnv⟩ := raises_compareSignaling a b
    refine Raises.bind (fun _ => accumulates_pure _) (p := fun f => f = ∅) (q := fun f => f = ∅) ?_
      (fun _ => rfl) ?_
    · refine hcases.resolve_right fun h => ?_
      rw [hnv, ha, hb] at h
      simp at h
    · rintro f f' rfl rfl
      rfl

theorem raises_convert (t : IntegerType) (largest least a : Word) :
    Raises (convert t largest least a) fun f => f = ∅ ∨ f = Flags.nv ∨ f = Flags.nx := by
  refine Raises.bind (p := fun f => f = ∅ ∨ f = Flags.nv ∨ f = Flags.nx) (q := fun f => f = ∅)
    (fun n? => ?_) (raises_collect ?_) (fun n? => ?_) ?_
  · cases n? <;> exact accumulates_pure _
  · obtain ⟨n?, f, hconvert, hf⟩ :=
      Pattern.flags_toIntegerType (by decide) truncating true t (ofWord a)
    rw [hconvert]
    exact hf
  · cases n? <;> rfl
  · rintro f f' hf rfl
    rwa [Flags.union_empty]

theorem raises_ofInteger {n : ℤ} (hn : |n| ≤ 2 ^ 32) :
    Raises (settleWord (Pattern.ofInteger Format.binary32 nearest n)) fun f =>
      (f = ∅ ∨ f = Flags.nx) ∧ (f = Flags.nx ↔ (n : ℝ) ∉ Format.binary32.finiteValues) := by
  have hlargest : |(n : ℝ)| ≤ Format.binary32.largest := by
    have hn' : |(n : ℝ)| ≤ 2 ^ (32 : ℤ) := by exact_mod_cast hn
    refine hn'.trans (le_trans ?_ Format.two_zpow_le_largest)
    exact zpow_le_zpow_right₀ one_le_two (by decide)
  obtain ⟨y, f, hy, hf⟩ :=
    Pattern.flags_ofInteger Format.regular_binary32 (by decide) nearest hlargest
  rw [hy]
  exact (raises_collect hf).map toWord

theorem raises_compute (op : Operation) (a b c : Word) :
    Raises (op.compute primitives a b c) (op.Envelope a b) := by
  cases op with
  | fadd => exact raises_add a b
  | fsub => exact raises_sub a b
  | fmul => exact raises_mul a b
  | fdiv => exact raises_div a b
  | fmadd | fnmsub =>
    exact raises_fused (fun w => accumulates_binary _ _ c) fun w => raises_add _ c
  | fmsub | fnmadd =>
    exact raises_fused (fun w => accumulates_binary _ _ c) fun w => raises_sub _ c
  | feq => exact raises_compareQuiet a b
  | flt | fle => exact raises_compareSignaling a b
  | fcvtWS | fcvtWuS => exact raises_convert _ _ _ a
  | fcvtSW =>
    have hlt := a.toInt_lt
    have hle := a.le_toInt
    exact raises_ofInteger (abs_le.mpr ⟨by omega, by omega⟩)
  | fcvtSWu =>
    have hlt := a.isLt
    have hf := raises_ofInteger (n := a.toNat) (abs_le.mpr ⟨by omega, by omega⟩)
    rwa [Int.cast_natCast] at hf
  | fmin | fmax => exact raises_pick _ a b
  | fsgnj | fsgnjn | fsgnjx | fmvXW | fmvWX | fclass => exact rfl
  | fsqrt => trivial

end Backend.Soft

namespace Core

/-- On a core that has raised nothing yet, an operation raises only exceptions of its envelope, and
the ones whose condition is known exactly then. -/
theorem execute_envelope {op : Operation} {o : Operands} {core : Core Flags} {words : List Word}
    (hfresh : core.state = ∅) (hwords : core.registers.readAll (op.sources o) = .ok words) :
    op.Envelope (words.getD 0 0) (words.getD 1 0)
      (primitives.flags (execute primitives op o core).2.state) := by
  have h := raises_compute op (words.getD 0 0) (words.getD 1 0) (words.getD 2 0)
  rw [state_execute hwords, hfresh]
  exact h

/-- One divided by zero raises division by zero alone. -/
theorem execute_envelope_one_by_zero :
    let core : Core Flags := (write .float 1 0x3f800000 ⟨.allocate {}, ∅⟩).2
    let o : Operands := { rs1 := 1, rs2 := 2 }
    core.state = ∅ ∧ core.registers.readAll (Operation.fdiv.sources o) = .ok [0x3f800000, 0] ∧
      Operation.fdiv.Envelope 0x3f800000 0
        (primitives.flags (execute primitives .fdiv o core).2.state) ∧
      primitives.flags (execute primitives .fdiv o core).2.state = Flags.dz := by
  intro core o
  have hfresh : core.state = ∅ := by decide +kernel
  have hwords : core.registers.readAll (Operation.fdiv.sources o) = .ok [0x3f800000, 0] := by
    decide +kernel
  have henvelope := execute_envelope hfresh hwords
  obtain ⟨hcoherent, hdz⟩ := id henvelope
  exact ⟨hfresh, hwords, henvelope, hcoherent.divisionByZero (hdz.mpr (by decide +kernel))⟩

end Core
end HartFloat
