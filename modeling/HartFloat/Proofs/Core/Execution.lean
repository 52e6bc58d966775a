import HartFloat.Backend.Soft
import HartFloat.Core
import HartFloat.Proofs.Registers.Frame

/-!
# What an operation does to the registers

The handlers differ in the registers they read and write, and in what they compute. All of them read
the sources that the operation is said to have, compute a word from those, and write it to the
destination that the operation is said to have. Whatever the backend is, the other registers stay as
they were, also when the destination is one of the sources, and a failing operation changes no
register at all. In a layout with word-aligned bases the only reason to fail is a register number
that is too large.
-/
namespace HartFloat

variable {σ α β : Type} {P : Primitives σ} {l : Layout} {op : Operation} {o : Operands}

/-- Steps run in sequence; a failure keeps the state that was reached and skips the rest. -/
theorem bind_apply {τ : Type} (x : ExceptT Failure (StateM τ) α)
    (f : α → ExceptT Failure (StateM τ) β) (t : τ) :
    (x >>= f) t =
      match x t with
      | (.ok a, t') => f a t'
      | (.error e, t') => (.error e, t') := by
  change StateT.bind x (ExceptT.bindCont f) t = _
  unfold StateT.bind
  rcases x t with ⟨_ | _, _⟩ <;> rfl

theorem map_eq_ok_iff {x : Except Failure α} {f : α → β} {b : β} :
    x.map f = .ok b ↔ ∃ a, x = .ok a ∧ f a = b := by
  cases x <;> simp [Except.map]

theorem map_eq_error_iff {x : Except Failure α} {f : α → β} {e : Failure} :
    x.map f = .error e ↔ x = .error e := by
  cases x <;> simp [Except.map]

namespace Operation

/-- The registers that the operation reads, in the order in which it reads them. -/
def sources (op : Operation) (o : Operands) : List (Bank × ℕ) :=
  [(op.sourceBank, o.rs1), (.float, o.rs2), (.float, o.rs3)].take op.sourceCount

/-- The word that the operation computes from its sources. -/
def compute (op : Operation) (P : Primitives σ) (a b c : Word) : StateM σ Word :=
  match op with
  | fadd => P.add a b
  | fsub => P.sub a b
  | fmul => P.mul a b
  | fdiv => P.div a b
  | fsqrt => P.sqrtApprox a
  | fmin => pick P .lt a b
  | fmax => pick P .gt a b
  | fmadd => do P.add (← P.mul a b) c
  | fmsub => do P.sub (← P.mul a b) c
  | fnmadd => do P.sub (Word.negate (← P.mul a b)) c
  | fnmsub => do P.add (Word.negate (← P.mul a b)) c
  | fsgnj => pure ((a &&& Word.magnitudeMask) ||| (b &&& Word.signMask))
  | fsgnjn => pure ((a &&& Word.magnitudeMask) ||| (~~~b &&& Word.signMask))
  | fsgnjx => pure (a ^^^ (b &&& Word.signMask))
  | feq => truth <$> P.isEqual a b
  | flt => truth <$> P.isLess a b
  | fle => truth <$> P.isLessOrEqual a b
  | fcvtWS => P.toSigned a
  | fcvtWuS => P.toUnsigned a
  | fcvtSW => P.ofSigned a
  | fcvtSWu => P.ofUnsigned a
  | fmvXW | fmvWX => pure a
  | fclass => pure (Word.classify a)

/-- The word that the operation computes from the words in its sources. -/
def result (op : Operation) (P : Primitives σ) (words : List Word) : StateM σ Word :=
  op.compute P (words.getD 0 0) (words.getD 1 0) (words.getD 2 0)

end Operation

namespace RegisterFile

variable {r : RegisterFile}

/-- The words in the given registers, unless one of them cannot be read. -/
def readAll (r : RegisterFile) : List (Bank × ℕ) → Except Failure (List Word)
  | [] => .ok []
  | s :: rest => do
    let w ← r.read s.1 s.2
    let words ← r.readAll rest
    return w :: words

theorem exists_readAll_iff (regs : List (Bank × ℕ)) :
    (∃ words, r.readAll regs = .ok words) ↔ ∀ s ∈ regs, ∃ w, r.read s.1 s.2 = .ok w := by
  induction regs with
  | nil => simp [readAll]
  | cons s rest ih =>
    rw [List.forall_mem_cons, ← ih, readAll]
    cases r.read s.1 s.2 with
    | error f => simp [bind, Except.bind]
    | ok w =>
      cases r.readAll rest with
      | error f => simp [bind, Except.bind]
      | ok words => simp [bind, Except.bind, pure, Except.pure]

/-- With word-aligned bases only a register number can keep registers from being read. -/
theorem Fits.exists_readAll_iff_of_aligned (h : r.Fits) (ha : r.layout.Aligned)
    (regs : List (Bank × ℕ)) :
    (∃ words, r.readAll regs = .ok words) ↔ ∀ s ∈ regs, s.2 < registerCount := by
  rw [exists_readAll_iff]
  refine forall₂_congr fun s _ => ?_
  rw [h.exists_read_iff]
  exact and_iff_left (ha s.1)

end RegisterFile

namespace Core

variable {core : Core σ} {b : Bank} {i : ℕ} {w : Word}

theorem read_apply (core : Core σ) : read b i core = (core.registers.read b i, core) := by
  unfold read
  rw [bind_apply]
  change (liftM (core.registers.read b i) : CoreM σ Word) core = _
  cases core.registers.read b i <;> rfl

theorem calculate_apply (run : StateM σ α) (core : Core σ) :
    calculate run core = (.ok (run core.state).1, { core with state := (run core.state).2 }) := rfl

theorem write_apply (core : Core σ) :
    write b i w core =
      match core.registers.write b i w with
      | .ok registers => (.ok (), { core with registers })
      | .error f => (.error f, core) := by
  unfold write
  rw [bind_apply]
  change ((liftM (core.registers.write b i w) : CoreM σ RegisterFile) >>=
    fun registers => set { core with registers }) core = _
  rw [bind_apply]
  cases core.registers.write b i w <;> rfl

/-- How an operation ends. A source that cannot be read ends it at once. Otherwise the backend
computes the result and keeps what it has done, whether or not the result can be written. -/
inductive Executed (P : Primitives σ) (op : Operation) (o : Operands) (core : Core σ) :
    Except Failure Unit × Core σ → Prop
  | unreadable {f : Failure} :
    core.registers.readAll (op.sources o) = .error f → Executed P op o core (.error f, core)
  | unwritable {words : List Word} {f : Failure} :
    core.registers.readAll (op.sources o) = .ok words →
    core.registers.write (op.destination o).1 (op.destination o).2
      (op.result P words core.state).1 = .error f →
    Executed P op o core (.error f, { core with state := (op.result P words core.state).2 })
  | written {words : List Word} {registers : RegisterFile} :
    core.registers.readAll (op.sources o) = .ok words →
    core.registers.write (op.destination o).1 (op.destination o).2
      (op.result P words core.state).1 = .ok registers →
    Executed P op o core (.ok (), ⟨registers, (op.result P words core.state).2⟩)

/-- Reads registers, computes a word from theirs and writes it. -/
def perform (sources : List (Bank × ℕ)) (d : Bank × ℕ) (run : List Word → StateM σ Word)
    (core : Core σ) : Except Failure Unit × Core σ :=
  match core.registers.readAll sources with
  | .ok words =>
    write d.1 d.2 (run words core.state).1 { core with state := (run words core.state).2 }
  | .error f => (.error f, core)

theorem read_bind_eq_perform {rest : List (Bank × ℕ)} {d : Bank × ℕ} {next : Word → CoreM σ Unit}
    {run : List Word → StateM σ Word}
    (h : ∀ a, next a core = perform rest d (fun words => run (a :: words)) core) :
    (read b i >>= next) core = perform ((b, i) :: rest) d run core := by
  rw [bind_apply, read_apply, perform, RegisterFile.readAll]
  cases core.registers.read b i with
  | error f => rfl
  | ok a =>
    refine (h a).trans ?_
    rw [perform]
    cases core.registers.readAll rest <;> rfl

theorem calculate_bind_eq_perform (run : StateM σ α) (f : α → Word) :
    (calculate run >>= fun r => write b i (f r)) core =
      perform [] (b, i) (fun _ => f <$> run) core := by
  rw [bind_apply, calculate_apply]
  rfl

theorem binary_eq_perform (f : Word → Word → StateM σ Word) :
    binary o f core = perform [(.float, o.rs1), (.float, o.rs2)] (.float, o.rd)
      (fun words => f (words.getD 0 0) (words.getD 1 0)) core := by
  refine read_bind_eq_perform fun a => read_bind_eq_perform fun b => ?_
  exact calculate_bind_eq_perform (f a b) id

theorem ternary_eq_perform (f : Word → Word → Word → StateM σ Word) :
    ternary o f core = perform [(.float, o.rs1), (.float, o.rs2), (.float, o.rs3)] (.float, o.rd)
      (fun words => f (words.getD 0 0) (words.getD 1 0) (words.getD 2 0)) core := by
  refine read_bind_eq_perform fun a => read_bind_eq_perform fun b =>
    read_bind_eq_perform fun c => ?_
  exact calculate_bind_eq_perform (f a b c) id

theorem bitwise_eq_perform (f : Word → Word → Word) :
    bitwise o f core = perform [(.float, o.rs1), (.float, o.rs2)] (.float, o.rd)
      (fun words => pure (f (words.getD 0 0) (words.getD 1 0))) core :=
  read_bind_eq_perform fun _ => read_bind_eq_perform fun _ => rfl

theorem relate_eq_perform (f : Word → Word → StateM σ Bool) :
    relate o f core = perform [(.float, o.rs1), (.float, o.rs2)] (.integer, returnRegister)
      (fun words => Operation.truth <$> f (words.getD 0 0) (words.getD 1 0)) core := by
  refine read_bind_eq_perform fun a => read_bind_eq_perform fun b => ?_
  exact calculate_bind_eq_perform (f a b) Operation.truth

/-- Each handler reads the sources that the operation is said to have, and writes the destination
that it is said to have. -/
theorem execute_apply (P : Primitives σ) (op : Operation) (o : Operands) (core : Core σ) :
    execute P op o core =
      match core.registers.readAll (op.sources o) with
      | .ok words =>
        write (op.destination o).1 (op.destination o).2 (op.result P words core.state).1
          { core with state := (op.result P words core.state).2 }
      | .error f => (.error f, core) := by
  cases op with
  | fadd => exact binary_eq_perform P.add
  | fsub => exact binary_eq_perform P.sub
  | fmul => exact binary_eq_perform P.mul
  | fdiv => exact binary_eq_perform P.div
  | fmin => exact binary_eq_perform (Operation.pick P .lt)
  | fmax => exact binary_eq_perform (Operation.pick P .gt)
  | fmadd | fmsub | fnmadd | fnmsub => exact ternary_eq_perform _
  | fsgnj | fsgnjn | fsgnjx => exact bitwise_eq_perform _
  | feq => exact relate_eq_perform P.isEqual
  | flt => exact relate_eq_perform P.isLess
  | fle => exact relate_eq_perform P.isLessOrEqual
  | fsqrt => exact read_bind_eq_perform fun a => calculate_bind_eq_perform (P.sqrtApprox a) id
  | fcvtWS => exact read_bind_eq_perform fun a => calculate_bind_eq_perform (P.toSigned a) id
  | fcvtWuS => exact read_bind_eq_perform fun a => calculate_bind_eq_perform (P.toUnsigned a) id
  | fcvtSW => exact read_bind_eq_perform fun a => calculate_bind_eq_perform (P.ofSigned a) id
  | fcvtSWu => exact read_bind_eq_perform fun a => calculate_bind_eq_perform (P.ofUnsigned a) id
  | fmvXW | fmvWX | fclass => exact read_bind_eq_perform fun _ => rfl

theorem executed (P : Primitives σ) (op : Operation) (o : Operands) (core : Core σ) :
    Executed P op o core (execute P op o core) := by
  rw [execute_apply]
  cases hr : core.registers.readAll (op.sources o) with
  | error f => exact .unreadable hr
  | ok words =>
    simp only [write_apply]
    split
    · next hw => exact .written hr hw
    · next hw => exact .unwritable hr hw

/-- The backend keeps what the computation did, whether or not the result can be written. -/
theorem state_execute {words : List Word} (h : core.registers.readAll (op.sources o) = .ok words) :
    (execute P op o core).2.state = (op.result P words core.state).2 := by
  have hx := executed P op o core
  generalize execute P op o core = outcome at hx ⊢
  cases hx with
  | unreadable hr => cases h.symm.trans hr
  | unwritable hr _ | written hr _ =>
    obtain rfl := Except.ok.inj (h.symm.trans hr)
    rfl

theorem registers_execute (P : Primitives σ) (op : Operation) (o : Operands) (core : Core σ) :
    (execute P op o core).2.registers = core.registers ∨
      ∃ w, core.registers.write (op.destination o).1 (op.destination o).2 w =
        .ok (execute P op o core).2.registers := by
  have hx := executed P op o core
  generalize execute P op o core = outcome at hx ⊢
  cases hx with
  | unreadable _ => exact .inl rfl
  | unwritable _ _ => exact .inl rfl
  | written _ hw => exact .inr ⟨_, hw⟩

/-- The cores that a fresh one becomes by writes, executions and resets, be they successful or
not. -/
inductive Reachable (P : Primitives σ) (l : Layout) : Core σ → Prop
  | create {state : σ} {core : Core σ} : Core.create l state = .ok core → Reachable P l core
  | write {core : Core σ} {b : Bank} {i : ℕ} {w : Word} :
    Reachable P l core → Reachable P l (Core.write b i w core).2
  | execute {core : Core σ} {op : Operation} {o : Operands} :
    Reachable P l core → Reachable P l (Core.execute P op o core).2
  | executeIndex {core : Core σ} {i : ℕ} {o : Operands} :
    Reachable P l core → Reachable P l (Core.executeIndex P i o core).2
  | reset {core : Core σ} : Reachable P l core → Reachable P l (Core.reset core).2

theorem registers_reachable_write (h : RegisterFile.Reachable l core.registers) :
    RegisterFile.Reachable l (write b i w core).2.registers := by
  rw [write_apply]
  split
  · next hw => exact .write h hw
  · exact h

theorem registers_reachable_execute (h : RegisterFile.Reachable l core.registers) :
    RegisterFile.Reachable l (execute P op o core).2.registers := by
  obtain heq | ⟨w, hw⟩ := registers_execute P op o core
  · rw [heq]
    exact h
  · exact .write h hw

theorem executeIndex_apply (P : Primitives σ) (i : ℕ) (o : Operands) (core : Core σ) :
    executeIndex P i o core =
      match Operation.ofIndex i with
      | .ok op => ((execute P op o core).1.map fun _ => op, (execute P op o core).2)
      | .error f => (.error f, core) := by
  unfold executeIndex
  rw [bind_apply]
  cases Operation.ofIndex i with
  | error f => rfl
  | ok op =>
    change (execute P op o >>= fun _ => pure op) core =
      ((execute P op o core).1.map fun _ => op, (execute P op o core).2)
    rw [bind_apply]
    rcases execute P op o core with ⟨_ | _, _⟩ <;> rfl

theorem Reachable.registers (h : Reachable P l core) :
    RegisterFile.Reachable l core.registers := by
  induction h with
  | create hc =>
    unfold Core.create at hc
    cases hr : RegisterFile.create l with
    | error f => simp [hr, Except.map] at hc
    | ok r =>
      simp only [hr, Except.map, Except.ok.injEq] at hc
      subst hc
      exact .create hr
  | write _ ih => exact registers_reachable_write ih
  | execute _ ih => exact registers_reachable_execute ih
  | executeIndex _ ih =>
    rw [executeIndex_apply]
    split
    · exact registers_reachable_execute ih
    · exact ih
  | reset _ ih => exact .reset ih

theorem registers_of_error {f : Failure} (h : (execute P op o core).1 = .error f) :
    (execute P op o core).2.registers = core.registers := by
  have hx := executed P op o core
  generalize execute P op o core = outcome at hx h ⊢
  cases hx with
  | unreadable _ => rfl
  | unwritable _ _ => rfl
  | written _ _ => cases h

theorem execute_of_write {words : List Word} {registers : RegisterFile}
    (hr : core.registers.readAll (op.sources o) = .ok words)
    (hw : core.registers.write (op.destination o).1 (op.destination o).2
      (op.result P words core.state).1 = .ok registers) :
    execute P op o core = (.ok (), ⟨registers, (op.result P words core.state).2⟩) := by
  simp only [execute_apply, hr, write_apply, hw]

theorem execute_eq_ok_iff :
    (execute P op o core).1 = .ok () ↔
      ∃ words, core.registers.readAll (op.sources o) = .ok words ∧
        ∃ registers, core.registers.write (op.destination o).1 (op.destination o).2
          (op.result P words core.state).1 = .ok registers := by
  have hx := executed P op o core
  generalize execute P op o core = outcome at hx ⊢
  cases hx with
  | unreadable hr => simp [hr]
  | unwritable hr hw => simp [hr, hw]
  | written hr hw => simp [hr, hw]

theorem fits_execute (hf : core.registers.Fits) (P : Primitives σ) (op : Operation)
    (o : Operands) :
    (execute P op o core).2.registers.Fits ∧
      (execute P op o core).2.registers.layout = core.registers.layout := by
  obtain heq | ⟨w, hw⟩ := registers_execute P op o core
  · rw [heq]
    exact ⟨hf, rfl⟩
  · exact hf.write hw

theorem read_execute_other (hf : core.registers.Fits) (hne : (b, i) ≠ op.destination o) :
    (execute P op o core).2.registers.read b i = core.registers.read b i := by
  obtain heq | ⟨w, hw⟩ := registers_execute P op o core
  · rw [heq]
  · exact hf.read_write_other hw hne

theorem exists_error_iff :
    (∃ f, (execute P op o core).1 = .error f) ↔ (execute P op o core).1 ≠ .ok () := by
  cases (execute P op o core).1 <;> simp

/-- With word-aligned bases an operation succeeds whenever its register numbers are in range. -/
theorem execute_eq_ok_iff_of_aligned (hf : core.registers.Fits)
    (ha : core.registers.layout.Aligned) :
    (execute P op o core).1 = .ok () ↔
      ∀ s ∈ op.destination o :: op.sources o, s.2 < registerCount := by
  simp only [execute_eq_ok_iff, hf.exists_write_iff, List.forall_mem_cons,
    ← hf.exists_readAll_iff_of_aligned ha, ha (op.destination o).1, and_true]
  constructor
  · rintro ⟨words, hr, hd⟩
    exact ⟨hd, words, hr⟩
  · rintro ⟨hd, words, hr⟩
    exact ⟨words, hr, hd⟩

/-- An operation that succeeds changes its destination alone, to what it computes from the words
that its sources held; one that fails changes no register. With word-aligned bases it fails exactly
when one of its register numbers is too large. -/
theorem execute_frame (h : Reachable P l core) (op : Operation) (o : Operands) :
    ((execute P op o core).1 = .ok () →
      ∃ words, core.registers.readAll (op.sources o) = .ok words ∧
        (execute P op o core).2.registers.read (op.destination o).1 (op.destination o).2 =
          .ok (op.result P words core.state).1 ∧
        ∀ b i, (b, i) ≠ op.destination o →
          (execute P op o core).2.registers.read b i = core.registers.read b i) ∧
    (∀ f, (execute P op o core).1 = .error f →
      ∀ b i, (execute P op o core).2.registers.read b i = core.registers.read b i) ∧
    (l.Aligned →
      ((∃ f, (execute P op o core).1 = .error f) ↔
        ∃ s ∈ op.destination o :: op.sources o, registerCount ≤ s.2)) := by
  obtain ⟨hf, rfl⟩ := h.registers.fits
  refine ⟨fun hok => ?_, fun f herr b i => by rw [registers_of_error herr], fun ha => ?_⟩
  · obtain ⟨words, hr, registers, hw⟩ := execute_eq_ok_iff.mp hok
    refine ⟨words, hr, ?_, fun b i => read_execute_other hf⟩
    rw [execute_of_write hr hw]
    exact RegisterFile.read_write_same hw
  · rw [exists_error_iff, Ne, execute_eq_ok_iff_of_aligned hf ha]
    push Not
    rfl

/-- One register is both sources and the destination; a register number out of range fails. -/
theorem execute_frame_same_register :
    let core : Core Flags := (write .float 1 0x3f800000 ⟨.allocate {}, ∅⟩).2
    let step := execute Backend.Soft.primitives .fsgnjn { rs1 := 1, rs2 := 1, rd := 1 } core
    Reachable Backend.Soft.primitives {} core ∧ step.1 = .ok () ∧
      step.2.registers.read .float 1 = .ok 0xbf800000 ∧
      step.2.registers.read .float 2 = core.registers.read .float 2 ∧
      ∃ f, (execute Backend.Soft.primitives .fsgnjn { rd := 32 } core).1 = .error f := by
  have hcore : Reachable Backend.Soft.primitives {}
      (write .float 1 0x3f800000 ⟨.allocate {}, (∅ : Flags)⟩).2 := .write (.create rfl)
  have hok : (execute Backend.Soft.primitives .fsgnjn { rs1 := 1, rs2 := 1, rd := 1 }
      (write .float 1 0x3f800000 ⟨.allocate {}, ∅⟩).2).1 = .ok () := by decide
  obtain ⟨words, -, -, hother⟩ := (execute_frame hcore _ _).1 hok
  have hfail := ((execute_frame hcore .fsgnjn { rd := 32 }).2.2 Layout.aligned_default).mpr
    ⟨(.float, 32), by decide, by decide⟩
  exact ⟨hcore, hok, by decide, hother .float 2 (by decide), hfail⟩

end Core
end HartFloat
