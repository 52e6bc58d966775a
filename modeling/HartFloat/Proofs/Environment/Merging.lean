import HartFloat.Environment
import HartFloat.Proofs.Pattern.Narrow
import Mathlib.Tactic

/-!
# Operations on patterns that carry environments

Environments merge exactly when they round alike, and then into one that has raised what any of
them has raised, in whatever order they are merged. An operation on several carried patterns
therefore either refuses them, because their environments do not agree, or does what it does in
their common context, and adds its own exceptions to those of all operands.
-/
namespace HartFloat

variable {α : Type}

namespace Environment

variable {a b env m : Environment} {envs : List Environment}

def Agree (envs : List Environment) : Prop :=
  ∀ a ∈ envs, ∀ b ∈ envs,
    a.mode = b.mode ∧ a.exceptions = b.exceptions ∧ a.tininess = b.tininess

/-- What any of the environments has raised. -/
def allFlags : List Environment → Flags
  | [] => ∅
  | env :: envs => env.flags ∪ allFlags envs

/-- Merges environments into the first one, one after the other. -/
def mergeAll? (env : Environment) (envs : List Environment) : Option Environment :=
  envs.foldlM merge? env

theorem toContext_eq_iff : a.toContext = b.toContext ↔
    a.mode = b.mode ∧ a.exceptions = b.exceptions ∧ a.tininess = b.tininess := by
  rcases a with ⟨⟨_, _, _⟩, _⟩
  rcases b with ⟨⟨_, _, _⟩, _⟩
  simp

theorem merge?_eq_some_iff : a.merge? b = some m ↔
    a.toContext = m.toContext ∧ b.toContext = m.toContext ∧ m.flags = a.flags ∪ b.flags := by
  rcases m with ⟨c, f⟩
  unfold merge?
  split_ifs with h
  · constructor
    · intro hm
      cases hm
      exact ⟨rfl, h.symm, rfl⟩
    · rintro ⟨rfl, hb, rfl⟩
      rfl
  · constructor
    · intro hm
      cases hm
    · rintro ⟨ha, hb, -⟩
      exact absurd (ha.trans hb.symm) h

theorem mergeAll?_eq_some_iff : env.mergeAll? envs = some m ↔
    (∀ e ∈ env :: envs, e.toContext = m.toContext) ∧ m.flags = allFlags (env :: envs) := by
  induction envs generalizing env with
  | nil =>
    rcases env with ⟨c, f⟩
    rcases m with ⟨c', f'⟩
    simp [mergeAll?, allFlags, eq_comm]
  | cons b envs ih =>
    -- The others are merged into what the first two give, which has the flags of both.
    have hstep : env.mergeAll? (b :: envs) = (env.merge? b).bind (·.mergeAll? envs) := rfl
    rw [hstep, Option.bind_eq_some_iff]
    constructor
    · rintro ⟨merged, hmerged, hm⟩
      obtain ⟨henv, hb, hflags⟩ := merge?_eq_some_iff.mp hmerged
      obtain ⟨hall, hm⟩ := ih.mp hm
      obtain ⟨hc, hall⟩ := List.forall_mem_cons.mp hall
      refine ⟨List.forall_mem_cons.mpr ⟨henv.trans hc, ?_⟩, ?_⟩
      · exact List.forall_mem_cons.mpr ⟨hb.trans hc, hall⟩
      · rw [hm, allFlags, hflags, Flags.union_assoc]
        rfl
    · rintro ⟨hall, hm⟩
      obtain ⟨henv, hall⟩ := List.forall_mem_cons.mp hall
      obtain ⟨hb, hall⟩ := List.forall_mem_cons.mp hall
      refine ⟨⟨m.toContext, env.flags ∪ b.flags⟩, merge?_eq_some_iff.mpr ⟨henv, hb, rfl⟩, ?_⟩
      refine ih.mpr ⟨List.forall_mem_cons.mpr ⟨rfl, hall⟩, ?_⟩
      rw [hm, allFlags, allFlags, allFlags, Flags.union_assoc]

theorem allFlags_perm {envs envs' : List Environment} (h : envs.Perm envs') :
    allFlags envs = allFlags envs' := by
  induction h with
  | nil => rfl
  | cons env _ ih => rw [allFlags, allFlags, ih]
  | swap a b envs =>
    simp only [allFlags]
    rw [← Flags.union_assoc, Flags.union_comm b.flags, Flags.union_assoc]
  | trans _ _ ih ih' => exact ih.trans ih'

theorem mergeAll?_perm {envs' : List Environment} (h : (a :: envs).Perm (b :: envs')) :
    a.mergeAll? envs = b.mergeAll? envs' := by
  refine Option.ext fun m => ?_
  rw [mergeAll?_eq_some_iff, mergeAll?_eq_some_iff, allFlags_perm h]
  simp only [h.mem_iff]

theorem mergeAll?_of_forall {c : Context} (h : ∀ e ∈ env :: envs, e.toContext = c) :
    env.mergeAll? envs = some ⟨c, allFlags (env :: envs)⟩ :=
  mergeAll?_eq_some_iff.mpr ⟨h, rfl⟩

theorem mergeAll?_eq_none_iff : env.mergeAll? envs = none ↔ ¬Agree (env :: envs) := by
  have hagree : Agree (env :: envs) ↔ ∃ m, env.mergeAll? envs = some m := by
    constructor
    · intro h
      exact ⟨_, mergeAll?_of_forall fun e he => toContext_eq_iff.mpr (h e he env (by simp))⟩
    · rintro ⟨m, hm⟩ a ha b hb
      obtain ⟨hall, -⟩ := mergeAll?_eq_some_iff.mp hm
      exact toContext_eq_iff.mp ((hall a ha).trans (hall b hb).symm)
  rw [hagree, Option.eq_none_iff_forall_ne_some, not_exists]

end Environment

namespace Pattern

variable {F : Format} {o o' : Outcome α} {x : Pattern F}

/-- The format fails to meet a demand of the operations: a sign bit, or exponents that fit. -/
def FailsFor (F : Format) (v : Violation) : Prop :=
  v = .noSignBit ∧ F.signBit = false ∨ v = .exponentTooWide ∧ 64 ≤ F.exponentWidth

/-- The outcome fails only by the format. -/
def FailsByFormat (F : Format) (o : Outcome α) : Prop := ∀ v, o = .error v → FailsFor F v

theorem failsByFormat_ok (r : α × Flags) : FailsByFormat F (.ok r) := by
  intro v hv
  cases hv

theorem failsByFormat_signed (s : Sign) (e m : ℕ) (g : Pattern F → α × Flags) :
    FailsByFormat F ((signed F s e m).map g) := by
  intro v hv
  unfold signed at hv
  split_ifs at hv with hs
  · cases hv
    exact Or.inl ⟨rfl, hs.2⟩
  · cases hv

theorem FailsByFormat.ite {c : Prop} [Decidable c] (h : FailsByFormat F o)
    (h' : FailsByFormat F o') : FailsByFormat F (if c then o else o') := by
  split_ifs
  · exact h
  · exact h'

theorem failsFor_of_ratio_eq_error {v : Violation} (hv : x.ratio = .error v) : FailsFor F v := by
  rcases x.ratio_cases with hok | ⟨hwide, herror⟩
  · rw [hok] at hv
    cases hv
  · rw [herror] at hv
    cases hv
    exact Or.inr ⟨rfl, hwide⟩

theorem failsByFormat_ratio_bind {k : ℚ → Outcome α} (hk : ∀ q, FailsByFormat F (k q)) :
    FailsByFormat F (x.ratio.bind k) := by
  intro v hv
  cases hratio : x.ratio with
  | error w =>
    rw [hratio] at hv
    cases hv
    exact failsFor_of_ratio_eq_error hratio
  | ok q =>
    rw [hratio] at hv
    exact hk q v hv

theorem failsByFormat_round (c : Context) (v : Exact.Surd) : FailsByFormat F (F.round c v) := by
  intro w hv
  rcases F.round_cases c v with hok | ⟨hwide, herror⟩
  · rw [hok] at hv
    cases hv
  · rw [herror] at hv
    cases hv
    exact Or.inr ⟨rfl, hwide⟩

theorem failsByFormat_ofSum (c : Context) (q : ℚ) : FailsByFormat F (ofSum F c q) :=
  .ite (failsByFormat_signed _ _ _ _) (failsByFormat_round _ _)

theorem failsByFormat_add (c : Context) (x y : Pattern F) : FailsByFormat F (add c x y) := by
  apply FailsByFormat.ite (failsByFormat_ok _)
  apply FailsByFormat.ite (failsByFormat_ok _)
  apply FailsByFormat.ite (failsByFormat_signed _ _ _ _)
  apply FailsByFormat.ite (failsByFormat_signed _ _ _ _)
  apply FailsByFormat.ite (failsByFormat_signed _ _ _ _)
  apply FailsByFormat.ite (failsByFormat_signed _ _ _ _)
  exact failsByFormat_ratio_bind fun _ => failsByFormat_ratio_bind fun _ => failsByFormat_ofSum c _

theorem failsByFormat_sub (c : Context) (x y : Pattern F) : FailsByFormat F (sub c x y) := by
  apply FailsByFormat.ite (failsByFormat_ok _)
  apply FailsByFormat.ite (failsByFormat_ok _)
  apply FailsByFormat.ite (failsByFormat_signed _ _ _ _)
  apply FailsByFormat.ite (failsByFormat_signed _ _ _ _)
  apply FailsByFormat.ite (failsByFormat_signed _ _ _ _)
  apply FailsByFormat.ite (failsByFormat_signed _ _ _ _)
  refine failsByFormat_ratio_bind fun a => ?_
  rw [ratio_neg_bind]
  exact failsByFormat_ratio_bind fun _ => failsByFormat_ofSum c _

theorem failsByFormat_mul (c : Context) (x y : Pattern F) : FailsByFormat F (mul c x y) := by
  apply FailsByFormat.ite (failsByFormat_ok _)
  apply FailsByFormat.ite (failsByFormat_ok _)
  apply FailsByFormat.ite (failsByFormat_signed _ _ _ _)
  apply FailsByFormat.ite (failsByFormat_signed _ _ _ _)
  exact failsByFormat_ratio_bind fun _ => failsByFormat_ratio_bind fun _ => failsByFormat_round _ _

theorem failsByFormat_div (c : Context) (x y : Pattern F) : FailsByFormat F (div c x y) := by
  apply FailsByFormat.ite (failsByFormat_ok _)
  apply FailsByFormat.ite (failsByFormat_ok _)
  apply FailsByFormat.ite (failsByFormat_signed _ _ _ _)
  apply FailsByFormat.ite (failsByFormat_signed _ _ _ _)
  apply FailsByFormat.ite (failsByFormat_signed _ _ _ _)
  exact failsByFormat_ratio_bind fun _ => failsByFormat_ratio_bind fun _ => failsByFormat_round _ _

theorem failsByFormat_remainder (c : Context) (x y : Pattern F) :
    FailsByFormat F (remainder c x y) := by
  apply FailsByFormat.ite (failsByFormat_ok _)
  apply FailsByFormat.ite (failsByFormat_ok _)
  apply FailsByFormat.ite
  · exact .ite (failsByFormat_signed _ _ _ _)
      (failsByFormat_ratio_bind fun _ => failsByFormat_round _ _)
  · exact failsByFormat_ratio_bind fun _ => failsByFormat_ratio_bind fun _ =>
      .ite (failsByFormat_signed _ _ _ _) (failsByFormat_round _ _)

theorem failsByFormat_fusedNaN (x y z : Pattern F) (infinityTimesZero : Bool) :
    FailsByFormat F (fusedNaN x y z infinityTimesZero) := by
  refine .ite ?_ (failsByFormat_ok _)
  cases F.platform.infinityTimesZeroPlusNaN <;> exact failsByFormat_ok _

theorem failsByFormat_fusedMultiplyAdd (c : Context) (x y z : Pattern F) :
    FailsByFormat F (fusedMultiplyAdd c x y z) := by
  apply FailsByFormat.ite (failsByFormat_fusedNaN x y z _)
  apply FailsByFormat.ite (failsByFormat_ok _)
  apply FailsByFormat.ite (failsByFormat_signed _ _ _ _)
  apply FailsByFormat.ite (failsByFormat_signed _ _ _ _)
  apply FailsByFormat.ite (failsByFormat_signed _ _ _ _)
  exact failsByFormat_ratio_bind fun _ => failsByFormat_ratio_bind fun _ =>
    failsByFormat_ratio_bind fun _ => failsByFormat_ofSum c _

theorem failsByFormat_compare (quiet : Bool) (x y : Pattern F) :
    FailsByFormat F (compare quiet x y) := by
  apply FailsByFormat.ite (failsByFormat_ok _)
  have horder : (x.order y).map (fun o => (some o, (∅ : Flags))) =
      if x.isInfinity || y.isInfinity then (x.order y).map fun o => (some o, ∅)
      else x.ratio.bind fun a => y.ratio.bind fun b => .ok (some (compareRat a b), ∅) := by
    split_ifs with hinf
    · rfl
    · rw [order, if_neg hinf]
      cases x.ratio <;> cases y.ratio <;> rfl
  rw [horder]
  split_ifs with hinf
  · rw [order, if_pos hinf]
    split_ifs <;> exact failsByFormat_ok _
  · exact failsByFormat_ratio_bind fun _ => failsByFormat_ratio_bind fun _ => failsByFormat_ok _

end Pattern

namespace Carried

open Environment

variable {F : Format} {mode? : Option RoundingMode} {op : Context → Outcome α}
  {env : Environment} {envs : List Environment}

/-- What an operation makes of operands that carry the given environments: `r` is the answer of its
checked form. -/
structure MergesFirst (F : Format) (envs : List Environment) (mode? : Option RoundingMode)
    (op : Context → Outcome α) (r : Option (Except Violation (α × Environment))) : Prop where
  /-- The operands are refused exactly when their environments do not agree. -/
  refuses_iff : r = none ↔ ¬Agree envs
  /-- Otherwise it does what it does in their common context, and joins its own exceptions to those
  of all operands. -/
  runs : ∀ c : Context, (∀ env ∈ envs, env.toContext = c) →
    r = some ((op (c.override mode?)).map fun s => (s.1, ⟨c, allFlags envs ∪ s.2⟩))
  /-- With a sign bit and exponents that fit, operands whose environments agree have a result. -/
  returns : F.signBit = true → F.exponentWidth ≤ 63 → Agree envs → ∃ s, r = some (.ok s)
  /-- The order in which the environments are merged makes no difference. -/
  any_order : ∀ first others, (first :: others).Perm envs →
    r = (first.mergeAll? others).map (·.run mode? op)
  /-- The unchecked form returns what the checked form returns. -/
  unchecked_ok_iff : ∀ s, unchecked r = .ok s ↔ r = some (.ok s)
  /-- The unchecked form finds the environments to disagree exactly when the checked form refuses
  the operands. -/
  unchecked_disagree_iff : unchecked r = .error .environmentsDisagree ↔ r = none
  /-- Both forms fail in two other cases: the format has no sign bit, and the result needs one, or
  its exponents do not fit. -/
  unchecked_error : ∀ v, unchecked r = .error v →
    r = none ∨ r = some (.error .noSignBit) ∧ F.signBit = false ∨
      r = some (.error .exponentTooWide) ∧ 64 ≤ F.exponentWidth

theorem run_eq_error {v : Violation} (hop : ∀ c, Pattern.FailsByFormat F (op c))
    (h : env.run mode? op = .error v) : Pattern.FailsFor F v := by
  rw [Environment.run] at h
  cases hc : op (env.toContext.override mode?) with
  | ok s =>
    rw [hc] at h
    cases h
  | error w =>
    rw [hc] at h
    cases h
    exact hop _ v hc

theorem mergesFirst {r : Option (Except Violation (α × Environment))}
    (hr : r = (env.mergeAll? envs).map (·.run mode? op))
    (hop : ∀ c, Pattern.FailsByFormat F (op c)) : MergesFirst F (env :: envs) mode? op r := by
  have herror : ∀ v, r = some (.error v) → Pattern.FailsFor F v := by
    intro v hv
    obtain ⟨m, -, hm⟩ := Option.map_eq_some_iff.mp (hr.symm.trans hv)
    exact run_eq_error hop hm
  have hrefuses : r = none ↔ ¬Agree (env :: envs) := by
    rw [hr, Option.map_eq_none_iff, mergeAll?_eq_none_iff]
  constructor
  case refuses_iff => exact hrefuses
  case returns =>
    intro hsign hw hagree
    cases hcases : r with
    | none => exact absurd hagree (hrefuses.mp hcases)
    | some outcome =>
      cases outcome with
      | error v =>
        rcases herror v hcases with ⟨-, hunsigned⟩ | ⟨-, hwide⟩
        · rw [hsign] at hunsigned
          cases hunsigned
        · omega
      | ok s => exact ⟨s, rfl⟩
  case runs =>
    intro c hc
    rw [hr, mergeAll?_of_forall hc]
    rfl
  case any_order =>
    intro first others hperm
    rw [hr, mergeAll?_perm hperm]
  case unchecked_ok_iff =>
    intro s
    cases r <;> simp [unchecked]
  case unchecked_disagree_iff =>
    cases r with
    | none => exact iff_of_true rfl rfl
    | some outcome =>
      refine iff_of_false (fun h => ?_) (Option.some_ne_none _)
      rcases herror _ (congrArg some h) with ⟨hv, -⟩ | ⟨hv, -⟩
      · cases hv
      · cases hv
  case unchecked_error =>
    intro v hv
    cases r with
    | none => exact Or.inl rfl
    | some outcome =>
      have hr : some outcome = some (.error v) := congrArg some hv
      rcases herror v hr with ⟨rfl, hsign⟩ | ⟨rfl, hwide⟩
      · exact Or.inr (Or.inl ⟨hr, hsign⟩)
      · exact Or.inr (Or.inr ⟨hr, hwide⟩)

theorem mergesFirst_apply₂ {op : Context → Pattern F → Pattern F → Outcome α}
    (hop : ∀ c x y, Pattern.FailsByFormat F (op c x y)) (mode? : Option RoundingMode)
    (x y : Carried F) :
    MergesFirst F [x.environment, y.environment] mode? (fun c => op c x.pattern y.pattern)
      (x.apply₂? y mode? op) := by
  refine mergesFirst ?_ fun c => hop c x.pattern y.pattern
  simp [apply₂?, merge₂, mergeAll?]

theorem mergesFirst_apply₃ {op : Context → Pattern F → Pattern F → Pattern F → Outcome α}
    (hop : ∀ c x y z, Pattern.FailsByFormat F (op c x y z)) (mode? : Option RoundingMode)
    (x y z : Carried F) :
    MergesFirst F [x.environment, y.environment, z.environment] mode?
      (fun c => op c x.pattern y.pattern z.pattern) (x.apply₃? y z mode? op) := by
  refine mergesFirst ?_ fun c => hop c x.pattern y.pattern z.pattern
  simp [apply₃?, merge₃, merge₂, mergeAll?]

/-- All operations on several carried patterns merge their environments first. -/
structure MergingOperations (mode? : Option RoundingMode) (x y z : Carried F) : Prop where
  arithmetic : ∀ op ∈ [Pattern.add, Pattern.sub, Pattern.mul, Pattern.div, Pattern.remainder],
    MergesFirst F [x.environment, y.environment] mode? (fun c => op c x.pattern y.pattern)
      (x.apply₂? y mode? op)
  fusedMultiplyAdd :
    MergesFirst F [x.environment, y.environment, z.environment] mode?
      (fun c => Pattern.fusedMultiplyAdd c x.pattern y.pattern z.pattern)
      (x.apply₃? y z mode? Pattern.fusedMultiplyAdd)
  comparison : ∀ op ∈ [Pattern.compare true, Pattern.compare false, Pattern.compareQuiet,
      Pattern.compareSignaling],
    MergesFirst F [x.environment, y.environment] none (fun _ => op x.pattern y.pattern)
      (x.apply₂? y none fun _ => op)

theorem mergingOperations (mode? : Option RoundingMode) (x y z : Carried F) :
    MergingOperations mode? x y z where
  arithmetic op hop := by
    refine mergesFirst_apply₂ ?_ mode? x y
    simp only [List.mem_cons, List.not_mem_nil, or_false] at hop
    rcases hop with rfl | rfl | rfl | rfl | rfl
    · exact Pattern.failsByFormat_add
    · exact Pattern.failsByFormat_sub
    · exact Pattern.failsByFormat_mul
    · exact Pattern.failsByFormat_div
    · exact Pattern.failsByFormat_remainder
  fusedMultiplyAdd := mergesFirst_apply₃ Pattern.failsByFormat_fusedMultiplyAdd mode? x y z
  comparison op hop := by
    refine mergesFirst_apply₂ (fun _ => ?_) none x y
    simp only [List.mem_cons, List.not_mem_nil, or_false] at hop
    rcases hop with rfl | rfl | rfl | rfl <;> exact Pattern.failsByFormat_compare _

/-- One minus one is a negative zero if it is rounded toward negative infinity, and a format without
a sign bit has no negative zero. -/
theorem agreeing_operands_may_fail :
    ¬∀ (F : Format) (mode? : Option RoundingMode) (x y : Carried F),
      Agree [x.environment, y.environment] → ∃ s, x.apply₂? y mode? Pattern.sub = some (.ok s) := by
  intro h
  let F : Format := { exponentWidth := 5, mantissaWidth := 10, signBit := false }
  let one : Carried F := ⟨{ mode := .towardNegative }, ⟨0x3c00, by decide⟩⟩
  have hsub : one.apply₂? one none Pattern.sub = some (.error .noSignBit) := by decide +kernel
  obtain ⟨s, hs⟩ := h F none one one (by simp [Agree])
  rw [hsub] at hs
  cases hs

end Carried
end HartFloat
