import HartFloat.Proofs.Emulator.Failure

/-!
# What a run counts

A run handles its words in order and accounts for each of them once: a word that is an instruction
is counted under its operation, any other word as not trapped. A run that fails stops at the first
word that fails; that word is not counted, and the words after it are not looked at.
-/
namespace HartFloat

/-- The operation of a word, if it is an instruction. -/
def Instruction.operation? (w : Word) : Option Operation := (decode w).map (·.operation)

theorem Operation.index_inj {op op' : Operation} : op.index = op'.index ↔ op = op' := by
  refine ⟨fun h => ?_, congrArg index⟩
  have hop := getElem_index op
  rw [h, getElem_index, Option.some.injEq] at hop
  exact hop.symm

namespace Statistics

/-- The statistics after one more word, given its operation. -/
def tally (s : Statistics) : Option Operation → Statistics
  | some op => s.record op
  | none => { s with notTrapped := s.notTrapped + 1 }

/-- The statistics after the given words, each accounted for once. -/
def tallyAll (s : Statistics) (ws : List Word) : Statistics :=
  ws.foldl (fun s w => s.tally (Instruction.operation? w)) s

theorem tallyAll_cons (s : Statistics) (w : Word) (ws : List Word) :
    s.tallyAll (w :: ws) = (s.tally (Instruction.operation? w)).tallyAll ws := rfl

theorem count_record (s : Statistics) (op op' : Operation) :
    (s.record op).count op' = s.count op' + if op = op' then 1 else 0 := by
  unfold record count
  by_cases h : op = op'
  · subst h
    simp
  · have hne : op.index.val ≠ op'.index.val := fun hi =>
      h (Operation.index_inj.mp (Fin.ext hi))
    simp [h, Vector.getElem_set_ne _ _ hne]

theorem sum_count_record (s : Statistics) (op : Operation) (ops : List Operation) :
    (ops.map (s.record op).count).sum = (ops.map s.count).sum + ops.count op := by
  induction ops with
  | nil => rfl
  | cons op' ops ih =>
    rw [List.map_cons, List.map_cons, List.sum_cons, List.sum_cons, ih, count_record,
      List.count_cons]
    by_cases h : op = op'
    · subst h
      simp
      omega
    · simp [h, Ne.symm h]
      omega

theorem total_record (s : Statistics) (op : Operation) : (s.record op).total = s.total + 1 := by
  have hone : Operation.all.count op = 1 := by cases op <;> decide
  unfold total
  rw [sum_count_record, hone]

theorem count_tally (s : Statistics) (op? : Option Operation) (op : Operation) :
    (s.tally op?).count op = s.count op + if op? == some op then 1 else 0 := by
  cases op? with
  | none => rfl
  | some op' => simp only [tally, count_record, Option.some_beq_some, beq_iff_eq]

theorem total_tally (s : Statistics) (op? : Option Operation) :
    (s.tally op?).total = s.total + if op?.isSome then 1 else 0 := by
  cases op? with
  | none =>
    rw [Option.isSome_none, if_neg Bool.false_ne_true, Nat.add_zero]
    rfl
  | some op => exact total_record s op

theorem notTrapped_tally (s : Statistics) (op? : Option Operation) :
    (s.tally op?).notTrapped = s.notTrapped + if op?.isNone then 1 else 0 := by
  cases op? <;> rfl

/-- A number that each word of a kind raises by one grows by the number of such words. -/
theorem tallyAll_eq_add_countP (number : Statistics → ℕ) (kind : Option Operation → Bool)
    (h : ∀ s op?, number (s.tally op?) = number s + if kind op? then 1 else 0) (s : Statistics)
    (ws : List Word) :
    number (s.tallyAll ws) =
      number s + ws.countP fun w => kind (Instruction.operation? w) := by
  induction ws generalizing s with
  | nil => rfl
  | cons w ws ih =>
    rw [tallyAll_cons, ih, h, List.countP_cons]
    omega

end Statistics

namespace Emulator

variable {σ : Type} {P : Primitives σ} {e : Emulator σ} {w : Word} {ws : List Word} {f : Failure}

theorem trap_of_ok {op? : Option Operation} (h : (trap P w e).1 = .ok op?) :
    op? = Instruction.operation? w ∧ (trap P w e).2.statistics = e.statistics.tally op? := by
  rw [trap_apply] at h ⊢
  unfold Instruction.operation?
  cases hd : Instruction.decode w with
  | none =>
    simp only [hd, Except.ok.injEq] at h
    subst h
    exact ⟨rfl, rfl⟩
  | some d =>
    simp only [hd, emulate_apply] at h ⊢
    generalize Core.execute P d.operation d.operands e.core = outcome at h ⊢
    obtain ⟨_ | _, core⟩ := outcome
    · cases h
    · cases h
      exact ⟨rfl, rfl⟩

/-- A word that fails is not counted and changes no register. -/
theorem trap_of_error (h : (trap P w e).1 = .error f) :
    (trap P w e).2.statistics = e.statistics ∧
      (trap P w e).2.core.registers = e.core.registers := by
  rw [trap_apply] at h ⊢
  cases hd : Instruction.decode w with
  | none => simp [hd] at h
  | some d =>
    simp only [hd, map_eq_error_iff] at h ⊢
    obtain ⟨hcore, heq⟩ := emulate_of_error h
    rw [heq]
    exact ⟨rfl, Core.registers_of_error hcore⟩

theorem run_of_ok {n : ℕ} (h : (run P ws e).1 = .ok n) :
    n = ws.countP (fun w => (Instruction.operation? w).isSome) ∧
      (run P ws e).2 = ws.foldl (fun e w => (trap P w e).2) e ∧
      (run P ws e).2.statistics = e.statistics.tallyAll ws := by
  induction ws generalizing e n with
  | nil =>
    cases h
    exact ⟨rfl, rfl, rfl⟩
  | cons w ws ih =>
    rw [run_cons] at h ⊢
    rcases ht : trap P w e with ⟨_ | op?, e'⟩
    · simp [ht] at h
    · have hok : (trap P w e).1 = .ok op? := by rw [ht]
      obtain ⟨hop, hstat⟩ := trap_of_ok hok
      simp only [ht] at h hstat ⊢
      obtain ⟨m, hrun, hn⟩ := map_eq_ok_iff.mp h
      obtain ⟨hm, hfold, htally⟩ := ih hrun
      refine ⟨?_, ?_, ?_⟩
      · rw [← hn, hm, List.countP_cons, hop]
      · rw [hfold, List.foldl_cons, ht]
      · rw [htally, hstat, hop, Statistics.tallyAll_cons]

theorem run_of_error (h : (run P ws e).1 = .error f) :
    ∃ before w after, ws = before ++ w :: after ∧ (∃ n, (run P before e).1 = .ok n) ∧
      trap P w (run P before e).2 = (.error f, (run P ws e).2) := by
  induction ws generalizing e with
  | nil => cases h
  | cons w ws ih =>
    rw [run_cons] at h ⊢
    rcases ht : trap P w e with ⟨g | op?, e'⟩
    · simp only [ht, Except.error.injEq] at h ⊢
      subst h
      exact ⟨[], w, ws, rfl, ⟨0, rfl⟩, ht⟩
    · simp only [ht] at h ⊢
      obtain ⟨before, w', after, rfl, ⟨n, hn⟩, htrap⟩ := ih (map_eq_error_iff.mp h)
      refine ⟨w :: before, w', after, rfl, ?_, ?_⟩
      · simp only [run_cons, ht, hn]
        exact ⟨_, rfl⟩
      · simp only [run_cons, ht]
        exact htrap

/-- A run that succeeds has handled all words in order; its answer and the counters grow by the
numbers of words of each kind. A run that fails leaves the registers and the statistics as they
were before the word that failed, and handles no later word. A run over two lists is a run over the
first and, if that succeeds, one over the second. -/
theorem run_accounts (P : Primitives σ) (ws : List Word) (e : Emulator σ) :
    (∀ n, (run P ws e).1 = .ok n →
      let e' := (run P ws e).2
      e' = ws.foldl (fun e w => (trap P w e).2) e ∧
        e'.statistics.total = e.statistics.total + n ∧ n ≤ ws.length ∧
        e'.statistics.notTrapped = e.statistics.notTrapped + (ws.length - n) ∧
        ∀ op, e'.statistics.count op =
          e.statistics.count op + ws.countP (Instruction.operation? · == some op)) ∧
    (∀ f, (run P ws e).1 = .error f →
      ∃ before w after, ws = before ++ w :: after ∧ (∃ n, (run P before e).1 = .ok n) ∧
        trap P w (run P before e).2 = (.error f, (run P ws e).2) ∧
        (run P ws e).2.core.registers = (run P before e).2.core.registers ∧
        (run P ws e).2.statistics = (run P before e).2.statistics) ∧
    ∀ ws', run P (ws ++ ws') e =
      match run P ws e with
      | (.ok n, e') => ((run P ws' e').1.map (n + ·), (run P ws' e').2)
      | (.error f, e') => (.error f, e') := by
  refine ⟨fun n h => ?_, fun f h => ?_, fun ws' => run_append P ws ws' e⟩
  · obtain ⟨hn, hfold, htally⟩ := run_of_ok h
    have hlength := List.length_eq_countP_add_countP
      (fun w => (Instruction.operation? w).isSome) (l := ws)
    simp only [Bool.not_eq_true, Option.isSome_eq_false_iff, Bool.decide_eq_true] at hlength
    refine ⟨hfold, ?_, ?_, ?_, fun op => ?_⟩
    · rw [htally, Statistics.tallyAll_eq_add_countP _ _ Statistics.total_tally, hn]
    · omega
    · rw [htally, Statistics.tallyAll_eq_add_countP _ _ Statistics.notTrapped_tally]
      omega
    · rw [htally]
      exact Statistics.tallyAll_eq_add_countP (·.count op) (· == some op)
        (Statistics.count_tally · · op) _ ws
  · obtain ⟨before, w, after, rfl, hbefore, htrap⟩ := run_of_error h
    have hfail : (trap P w (run P before e).2).1 = .error f := by rw [htrap]
    obtain ⟨hstat, hregs⟩ := trap_of_error hfail
    rw [htrap] at hstat hregs
    exact ⟨before, w, after, rfl, hbefore, htrap, hregs, hstat⟩

/-- A run of four words, one of them no instruction, and a run that fails at its second word. -/
theorem run_accounts_four_words :
    let e : Emulator Flags := ⟨⟨.allocate {}, ∅⟩, {}⟩
    let e₁ : Emulator Flags := ⟨⟨.allocate { integerBase := 0xa0000002 }, ∅⟩, {}⟩
    let done := run Backend.Soft.primitives [0xd00100d3, 0x001080d3, 0x02a00093, 0xc00080d3] e
    let failed := run Backend.Soft.primitives [0x001080d3, 0xd00100d3, 0x001080d3] e₁
    done.1 = .ok 3 ∧ done.2.statistics.total = e.statistics.total + 3 ∧
      done.2.statistics.notTrapped = e.statistics.notTrapped + (4 - 3) ∧
      failed.1 = .error (.access (.unaligned 0xa0000022)) ∧
      ∃ before w after, [0x001080d3, 0xd00100d3, 0x001080d3] = before ++ w :: after ∧
        failed.2.statistics = (run Backend.Soft.primitives before e₁).2.statistics := by
  intro e e₁ done failed
  have hdone : done.1 = .ok 3 := by decide +kernel
  have hfailed : failed.1 = .error (.access (.unaligned 0xa0000022)) := by decide +kernel
  obtain ⟨-, htotal, -, hskipped, -⟩ := (run_accounts _ _ e).1 3 hdone
  obtain ⟨before, w, after, hws, -, -, -, hstat⟩ := (run_accounts _ _ e₁).2.1 _ hfailed
  exact ⟨hdone, htotal, hskipped, hfailed, before, w, after, hws, hstat⟩

end Emulator
end HartFloat
