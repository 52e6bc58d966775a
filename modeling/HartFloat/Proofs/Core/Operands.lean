import HartFloat.Backend.Recorded
import HartFloat.Proofs.Core.Execution

/-!
# The operand fields that matter

The number of sources, the bank of the first source and the kind of destination are tables of their
own, beside the handlers, and tell the truth about them: two sets of operands that agree in the
fields these tables name are executed alike, down to the requests that the backend gets. The
rounding field is never among them, and a field that is not used may hold any number.
-/
namespace HartFloat

variable {σ : Type} {P : Primitives σ} {op : Operation} {o o' : Operands}

namespace Operation

/-- The operands are the same in the fields that the operation uses. -/
structure Agree (op : Operation) (o o' : Operands) : Prop where
  rs1_eq : o.rs1 = o'.rs1
  rs2_eq : 2 ≤ op.sourceCount → o.rs2 = o'.rs2
  rs3_eq : op.sourceCount = 3 → o.rs3 = o'.rs3
  rd_eq : op.writesReturn = false → o.rd = o'.rd

structure InRange (op : Operation) (o : Operands) : Prop where
  rs1_lt : o.rs1 < registerCount
  rs2_lt : 2 ≤ op.sourceCount → o.rs2 < registerCount
  rs3_lt : op.sourceCount = 3 → o.rs3 < registerCount
  rd_lt : op.writesReturn = false → o.rd < registerCount

theorem sourceCount_cases (op : Operation) :
    op.sourceCount = 1 ∨ op.sourceCount = 2 ∨ op.sourceCount = 3 := by
  cases op <;> decide

theorem sources_eq_cons (op : Operation) (o : Operands) :
    op.sources o = (op.sourceBank, o.rs1) ::
      [(Bank.float, o.rs2), (Bank.float, o.rs3)].take (op.sourceCount - 1) := by
  cases op <;> rfl

theorem agree_rounding (op : Operation) (o : Operands) (rm : ℕ) : op.Agree { o with rm } o :=
  ⟨rfl, fun _ => rfl, fun _ => rfl, fun _ => rfl⟩

theorem Agree.sources_eq (h : op.Agree o o') : op.sources o = op.sources o' := by
  unfold sources
  rcases op.sourceCount_cases with hc | hc | hc
  · simp only [hc, List.take, h.rs1_eq]
  · simp only [hc, List.take, h.rs1_eq, h.rs2_eq (by omega)]
  · simp only [hc, List.take, h.rs1_eq, h.rs2_eq (by omega), h.rs3_eq hc]

theorem Agree.destination_eq (h : op.Agree o o') : op.destination o = op.destination o' := by
  unfold destination
  cases hw : op.writesReturn with
  | true => rfl
  | false => rw [h.rd_eq hw]

theorem forall_mem_sources_iff {n : ℕ} :
    (∀ s ∈ op.sources o, s.2 < n) ↔
      o.rs1 < n ∧ (2 ≤ op.sourceCount → o.rs2 < n) ∧ (op.sourceCount = 3 → o.rs3 < n) := by
  rcases op.sourceCount_cases with hc | hc | hc <;> simp [sources, hc]

theorem destination_lt_iff :
    (op.destination o).2 < registerCount ↔
      (op.writesReturn = false → o.rd < registerCount) := by
  unfold destination
  cases op.writesReturn <;> simp [returnRegister, registerCount]

theorem inRange_iff :
    op.InRange o ↔ ∀ s ∈ op.destination o :: op.sources o, s.2 < registerCount := by
  rw [List.forall_mem_cons, destination_lt_iff, forall_mem_sources_iff]
  constructor
  · rintro ⟨h₁, h₂, h₃, hd⟩
    exact ⟨hd, h₁, h₂, h₃⟩
  · rintro ⟨hd, h₁, h₂, h₃⟩
    exact ⟨h₁, h₂, h₃, hd⟩

/-- The word computed does not depend on words from sources that the operation does not have. -/
theorem compute_congr (P : Primitives σ) (op : Operation) {a b b' c c' : Word}
    (hb : 2 ≤ op.sourceCount → b = b') (hc : op.sourceCount = 3 → c = c') :
    op.compute P a b c = op.compute P a b' c' := by
  cases op with
  | fadd | fsub | fmul | fdiv | fmin | fmax | fsgnj | fsgnjn | fsgnjx | feq | flt | fle =>
    rw [hb (by decide)]
    rfl
  | fmadd | fmsub | fnmadd | fnmsub => rw [hb (by decide), hc (by decide)]
  | fsqrt | fcvtWS | fcvtWuS | fcvtSW | fcvtSWu | fmvXW | fmvWX | fclass => rfl

end Operation

namespace Core

/-- The requests that an execution makes of the backend, in order. -/
def requests (P : Primitives σ) (op : Operation) (o : Operands) (core : Core σ) : List Request :=
  (execute (Backend.Recorded.primitives P P.name) op o ⟨core.registers, (core.state, [])⟩).2.state.2

/-- The first source comes from the given bank: the rest of the execution is told the word that
was read there, and not the number of the register. -/
def FirstSourceIn (P : Primitives σ) (op : Operation) (b : Bank) : Prop :=
  ∃ rest : ℕ → ℕ → ℕ → Word → CoreM σ Unit,
    ∀ o : Operands, execute P op o = read b o.rs1 >>= rest o.rs2 o.rs3 o.rd

theorem execute_congr (h : op.Agree o o') (core : Core σ) :
    execute P op o core = execute P op o' core := by
  rw [execute_apply, execute_apply, h.sources_eq, h.destination_eq]

theorem firstSourceIn_sourceBank (P : Primitives σ) (op : Operation) :
    FirstSourceIn P op op.sourceBank := by
  refine ⟨fun rs2 rs3 rd a => perform ([(.float, rs2), (.float, rs3)].take (op.sourceCount - 1))
    (op.destination { rd }) fun words => op.result P (a :: words), fun o => funext fun core => ?_⟩
  rw [execute_apply, op.sources_eq_cons]
  exact (read_bind_eq_perform fun a => rfl).symm

/-- There is only one such bank: a register number out of range fails with its name. -/
theorem FirstSourceIn.eq_sourceBank {b : Bank} (h : FirstSourceIn P op b) (core : Core σ) :
    b = op.sourceBank := by
  obtain ⟨rest, hrest⟩ := h
  obtain ⟨rest', hrest'⟩ := firstSourceIn_sourceBank P op
  have hx := congrFun ((hrest { rs1 := registerCount }).symm.trans (hrest' _)) core
  rw [bind_apply, bind_apply, read_apply, read_apply, RegisterFile.read_of_le le_rfl,
    RegisterFile.read_of_le le_rfl] at hx
  injection hx with hfail
  injection hfail with hname
  exact (Failure.registerIndex.inj hname).1

/-- An execution depends on the operand fields that the operation uses and on no other: on the
first source, on the second and third if it has that many sources, and on the destination unless it
writes the return register. Other fields and the rounding field have no influence on the answer,
the core or the requests to the backend, nor has a word that is not read, and they cannot make the
operation fail. The first source is an integer register exactly for the operations that are said to
read one. -/
theorem execute_uses_only (P : Primitives σ) (op : Operation) (core : Core σ) :
    (∀ o o', op.Agree o o' →
      execute P op o core = execute P op o' core ∧
        requests P op o core = requests P op o' core) ∧
    (∀ o rm, execute P op { o with rm } core = execute P op o core) ∧
    (∀ a b b' c c', (2 ≤ op.sourceCount → b = b') → (op.sourceCount = 3 → c = c') →
      op.compute P a b c = op.compute P a b' c') ∧
    (∀ l, l.Aligned → Reachable P l core →
      ∀ o, (execute P op o core).1 = .ok () ↔ op.InRange o) ∧
    (∀ b, FirstSourceIn P op b ↔ (b = .integer ↔ op.readsInteger = true)) := by
  refine ⟨fun o o' h => ⟨execute_congr h core, ?_⟩, fun o rm => ?_,
    fun a b b' c c' => op.compute_congr P, fun l hl h o => ?_, fun b => ⟨fun h => ?_, fun h => ?_⟩⟩
  · rw [requests, requests, execute_congr h]
  · exact execute_congr (op.agree_rounding o rm) core
  · obtain ⟨hf, rfl⟩ := h.registers.fits
    rw [execute_eq_ok_iff_of_aligned hf hl, Operation.inRange_iff]
  · rw [h.eq_sourceBank core, Operation.sourceBank]
    cases op.readsInteger <;> simp
  · have hb : b = op.sourceBank := by
      unfold Operation.sourceBank
      cases hr : op.readsInteger <;> cases b <;> simp_all
    rw [hb]
    exact firstSourceIn_sourceBank P op

/-- The classify instruction with numbers that are no registers in all fields it does not use. -/
theorem execute_uses_only_classify :
    let core : Core Flags := ⟨.allocate {}, ∅⟩
    let o : Operands := { rs1 := 31, rs2 := 32, rs3 := 99, rd := 255, rm := 7 }
    Operation.fclass.Agree o { rs1 := 31 } ∧ ({} : Layout).Aligned ∧
      Reachable Backend.Soft.primitives {} core ∧
      execute Backend.Soft.primitives .fclass o core =
        execute Backend.Soft.primitives .fclass { rs1 := 31 } core ∧
      requests Backend.Soft.primitives .fclass o core =
        requests Backend.Soft.primitives .fclass { rs1 := 31 } core ∧
      Operation.fclass.compute Backend.Soft.primitives 1 2 3 =
        Operation.fclass.compute Backend.Soft.primitives 1 0 0 ∧
      (execute Backend.Soft.primitives .fclass o core).1 = .ok () ∧
      FirstSourceIn Backend.Soft.primitives .fclass .float := by
  intro core o
  have hagree : Operation.fclass.Agree o { rs1 := 31 } :=
    ⟨rfl, by decide, by decide, by decide⟩
  have hcore : Reachable Backend.Soft.primitives {} core := .create rfl
  obtain ⟨hsame, -, hword, hok, hbank⟩ := execute_uses_only Backend.Soft.primitives .fclass core
  obtain ⟨hexecute, hrequests⟩ := hsame o _ hagree
  have hrange : Operation.fclass.InRange o := ⟨by decide, by decide, by decide, by decide⟩
  exact ⟨hagree, Layout.aligned_default, hcore, hexecute, hrequests,
    hword 1 2 0 3 0 (by decide) (by decide), (hok _ Layout.aligned_default hcore o).mpr hrange,
    (hbank .float).mpr (by decide)⟩

end Core
end HartFloat
