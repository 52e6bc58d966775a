import HartFloat.Proofs.Environment.Steps

/-!
# Exceptions are sticky and have no influence

Since the steps of an operation end in its outcome, exceptions raised earlier are kept and change
neither the result nor what else is raised, nothing else in the environment changes, and an
operation without an environment gives the result of one in a fresh environment.
-/
namespace HartFloat

variable {α : Type}

/-- How an operation deals with exceptions, given the environment it is entered with, if any. -/
structure IsSticky (mode? : Option RoundingMode) (op : Context → Outcome α)
    (entered : Option Environment → Except Violation (α × Option Environment)) : Prop where
  /-- In an environment it does what the operation does that is run there. -/
  eq_run : ∀ env, entered (some env) = (env.run mode? op).map fun r => (r.1, some r.2)
  /-- Its result, once there is one, does not depend on what was raised before; what it raises is
  added to that, and nothing else in the environment changes. -/
  accumulates : ∀ {c : Context} {before : Flags} {a : α} {env? : Option Environment},
    entered (some ⟨c, before⟩) = .ok (a, env?) →
      ∃ raised, entered (some ⟨c, ∅⟩) = .ok (a, some ⟨c, raised⟩) ∧
        ∀ flags, entered (some ⟨c, flags⟩) = .ok (a, some ⟨c, flags ∪ raised⟩)
  /-- Without an environment it gives the result of a fresh one. -/
  alone : entered none = (entered (some default)).map fun r => (r.1, none)

section

variable {mode? : Option RoundingMode} {op : Context → Outcome α}
  {entered : Option Environment → Except Violation (α × Option Environment)}

theorem isSticky_of_eq_run
    (hrun : ∀ env, entered (some env) = (env.run mode? op).map fun r => (r.1, some r.2))
    (halone : entered none = (entered (some default)).map fun r => (r.1, none)) :
    IsSticky mode? op entered := by
  refine ⟨hrun, ?_, halone⟩
  intro c before a env? hentered
  -- The outcome depends on the context only, so it is the same for all flags.
  have hall : ∀ flags, entered (some ⟨c, flags⟩) =
      (op (c.override mode?)).map fun r => (r.1, some ⟨c, flags ∪ r.2⟩) := by
    intro flags
    rw [hrun, Environment.run]
    cases op (c.override mode?) <;> rfl
  rw [hall] at hentered
  cases hop : op (c.override mode?) with
  | error v =>
    rw [hop] at hentered
    cases hentered
  | ok r =>
    rw [hop] at hentered
    cases hentered
    refine ⟨r.2, ?_, fun flags => ?_⟩
    · rw [hall, hop, Except.map, Flags.empty_union]
    · rw [hall, hop, Except.map]

theorem isSticky_enter {steps : EnvironmentM α}
    (h : ∀ env : Environment,
      EnvironmentM.EndsIn steps env (op (env.toContext.override mode?))) :
    IsSticky mode? op (EnvironmentM.enter steps) := by
  refine isSticky_of_eq_run (fun env => ?_) ?_
  · rw [EnvironmentM.enter, h env]
    rfl
  · rw [EnvironmentM.enter, EnvironmentM.enter]
    cases steps default <;> rfl

end

section

variable {F : Format}

theorem compare_some (quiet : Bool) (x y : Pattern F) (env : Environment) :
    Stepwise.compare quiet x y (some env) =
      (Pattern.compare quiet x y).map fun r => (r.1, some (env.raise r.2)) := by
  unfold Stepwise.compare Pattern.compare
  by_cases hnan : (x.isNaN || y.isNaN) = true
  · rw [if_pos hnan, if_pos hnan]
    cases !quiet || x.isSignaling || y.isSignaling with
    | false => simp [Flags.when, Except.map]
    | true => simp [Flags.when, Except.map]
  · rw [if_neg hnan, if_neg hnan]
    cases x.order y with
    | error v => rfl
    | ok o => simp [Except.map]

theorem compare_none (quiet : Bool) (x y : Pattern F) :
    Stepwise.compare quiet x y none =
      (Pattern.compare quiet x y).map fun r => (r.1, none) := by
  unfold Stepwise.compare Pattern.compare
  split_ifs
  · rfl
  · rfl
  · cases x.order y <;> rfl

theorem isSticky_compare (quiet : Bool) (x y : Pattern F) :
    IsSticky none (fun _ => Pattern.compare quiet x y) (Stepwise.compare quiet x y) := by
  refine isSticky_of_eq_run (fun env => ?_) ?_
  · rw [compare_some, Environment.run]
    cases Pattern.compare quiet x y <;> rfl
  · rw [compare_none, compare_some]
    cases Pattern.compare quiet x y <;> rfl

end

open Stepwise EnvironmentM in
/-- Every operation of a format is sticky, whether a direction is given for it alone or not. -/
structure StickyOperations (F : Format) (mode? : Option RoundingMode) : Prop where
  add (x y : Pattern F) : IsSticky mode? (Pattern.add · x y) (enter (add mode? x y))
  sub (x y : Pattern F) : IsSticky mode? (Pattern.sub · x y) (enter (sub mode? x y))
  mul (x y : Pattern F) : IsSticky mode? (Pattern.mul · x y) (enter (mul mode? x y))
  div (x y : Pattern F) : IsSticky mode? (Pattern.div · x y) (enter (div mode? x y))
  remainder (x y : Pattern F) :
    IsSticky mode? (Pattern.remainder · x y) (enter (remainder mode? x y))
  fusedMultiplyAdd (x y z : Pattern F) :
    IsSticky mode? (Pattern.fusedMultiplyAdd · x y z) (enter (fusedMultiplyAdd mode? x y z))
  toInteger (exact : Bool) (x : Pattern F) :
    IsSticky mode? (x.toInteger · exact) (enter (toInteger mode? exact x))
  toIntegerType (exact : Bool) (t : IntegerType) (x : Pattern F) :
    IsSticky mode? (x.toIntegerType · exact t) (enter (toIntegerType mode? exact t x))
  ofInteger (n : Int) :
    IsSticky mode? (Pattern.ofInteger F · n) (enter (ofInteger F mode? n))
  roundToIntegral (exact : Bool) (x : Pattern F) :
    IsSticky mode? (Pattern.roundToIntegral · exact x) (enter (roundToIntegral mode? exact x))
  next (d : Direction) (x : Pattern F) : IsSticky none (fun _ => x.next d) (enter (next d x))
  logB (x : Pattern F) : IsSticky none (fun _ => .ok x.logB) (enter (logB x))
  scaleB (scale : Int) (x : Pattern F) :
    IsSticky mode? (Pattern.scaleB · scale x) (enter (scaleB mode? scale x))
  sqrt (x : Pattern F) : IsSticky mode? (Pattern.sqrt · x) (enter (sqrt mode? x))
  rsqrt (x : Pattern F) : IsSticky mode? (Pattern.rsqrt · x) (enter (rsqrt mode? x))
  convert {S : Format} (x : Pattern S) :
    IsSticky mode? (Pattern.convert F · x) (enter (convert F mode? x))
  compareQuiet (x y : Pattern F) :
    IsSticky none (fun _ => Pattern.compareQuiet x y) (compareQuiet x y)
  compareSignaling (x y : Pattern F) :
    IsSticky none (fun _ => Pattern.compareSignaling x y) (compareSignaling x y)
  /-- Rounding, of whatever exact value. -/
  roundView (v : Exact.View) :
    IsSticky mode? (rounded F · v) (enter (roundView F mode? v))
  round (v : Exact.Surd) :
    IsSticky mode? (F.round · v) (enter (round F mode? v))

open Stepwise in
theorem stickyOperations (F : Format) (mode? : Option RoundingMode) :
    StickyOperations F mode? where
  add x y := isSticky_enter fun _ => endsIn_add x y
  sub x y := isSticky_enter fun _ => endsIn_sub x y
  mul x y := isSticky_enter fun _ => endsIn_mul x y
  div x y := isSticky_enter fun _ => endsIn_div x y
  remainder x y := isSticky_enter fun _ => endsIn_remainder x y
  fusedMultiplyAdd x y z := isSticky_enter fun _ => endsIn_fusedMultiplyAdd x y z
  toInteger exact x := isSticky_enter fun _ => endsIn_toInteger exact x
  toIntegerType exact t x := isSticky_enter fun _ => endsIn_toIntegerType exact t x
  ofInteger n := isSticky_enter fun _ => endsIn_ofInteger n
  roundToIntegral exact x := isSticky_enter fun _ => endsIn_roundToIntegral exact x
  next d x := isSticky_enter fun _ => endsIn_next d x
  logB x := isSticky_enter fun _ => endsIn_logB x
  scaleB scale x := isSticky_enter fun _ => endsIn_scaleB scale x
  sqrt x := isSticky_enter fun _ => endsIn_sqrt x
  rsqrt x := isSticky_enter fun _ => endsIn_rsqrt x
  convert x := isSticky_enter fun _ => endsIn_convert x
  compareQuiet x y := isSticky_compare true x y
  compareSignaling x y := isSticky_compare false x y
  roundView v := isSticky_enter fun _ => endsIn_roundView v
  round v := isSticky_enter fun _ => endsIn_round v

end HartFloat
