import HartFloat.Stepwise
import Mathlib.Tactic

/-!
# The steps of an operation and its outcome

An operation that works in an environment step by step ends in its outcome: it gives the result of
the outcome, and leaves the environment as it was but for the exceptions of the outcome, which are
added. This is proved once for each kind of step and for steps one after the other, and then for
each operation along its branches.
-/
namespace HartFloat

variable {α β : Type}

namespace Environment

variable {env : Environment}

@[simp] theorem raise_empty : env.raise ∅ = env := by
  cases env
  simp [raise]

@[simp] theorem raise_raise (f g : Flags) : (env.raise f).raise g = env.raise (f ∪ g) := by
  simp [raise, Flags.union_assoc]

end Environment

namespace EnvironmentM

variable {env : Environment} {steps : EnvironmentM α} {o : Outcome α} {f : Flags}

/-- The steps give the result of the outcome and raise its exceptions, or they fail as it does. -/
def EndsIn (steps : EnvironmentM α) (env : Environment) (o : Outcome α) : Prop :=
  steps env = o.map fun r => (r.1, env.raise r.2)

theorem EndsIn.eq_ok {a : α} (h : EndsIn steps env (.ok (a, f))) :
    steps env = .ok (a, env.raise f) := h

theorem EndsIn.eq_ok_of_quiet {a : α} (h : EndsIn steps env (.ok (a, ∅))) :
    steps env = .ok (a, env) := by
  rw [h.eq_ok, Environment.raise_empty]

theorem endsIn_pure (a : α) : EndsIn (pure a) env (.ok (a, ∅)) := by
  change Except.ok (a, env) = Except.ok (a, env.raise ∅)
  rw [Environment.raise_empty]

theorem endsIn_raise (f : Flags) : EndsIn (raise f) env (.ok ((), f)) := rfl

theorem endsIn_raiseIf (c : Bool) (f : Flags) :
    EndsIn (raiseIf c f) env (.ok ((), Flags.when c f)) := by
  cases c with
  | false => exact endsIn_pure ()
  | true => exact endsIn_raise f

theorem endsIn_demand (r : Except Violation α) : EndsIn (demand r) env (Pattern.quietly r) := by
  cases r with
  | error v => rfl
  | ok a => exact endsIn_pure a

theorem EndsIn.bind {a : α} {k : α → EnvironmentM β} {o : Outcome β}
    (h : EndsIn steps env (.ok (a, f))) (hk : EndsIn (k a) (env.raise f) o) :
    EndsIn (steps >>= k) env (o.map fun r => (r.1, f ∪ r.2)) := by
  have hbind : (steps >>= k) env = k a (env.raise f) := by
    change (steps env >>= fun r => k r.1 r.2) = _
    rw [h]
    rfl
  rw [EndsIn, hbind, hk]
  cases o with
  | error v => rfl
  | ok r => simp [Except.map]

theorem EndsIn.bind_error {k : α → EnvironmentM β} {v : Violation}
    (h : EndsIn steps env (.error v)) : EndsIn (steps >>= k) env (.error v) := by
  change (steps env >>= fun r => k r.1 r.2) = _
  rw [h]
  rfl

/-- First steps that raise nothing do not show in the outcome. -/
theorem EndsIn.bind_quiet {a : α} {k : α → EnvironmentM β} {o : Outcome β}
    (h : EndsIn steps env (.ok (a, ∅))) (hk : EndsIn (k a) env o) :
    EndsIn (steps >>= k) env o := by
  have hbind := h.bind (k := k) (o := o) (by rwa [Environment.raise_empty])
  cases o with
  | error v => exact hbind
  | ok r => simpa [Except.map] using hbind

theorem EndsIn.before {signal : EnvironmentM Unit} (h : EndsIn signal env (.ok ((), f)))
    (hsteps : EndsIn steps (env.raise f) o) :
    EndsIn (do signal; steps) env (o.map fun r => (r.1, f ∪ r.2)) :=
  h.bind hsteps

theorem EndsIn.before_pure {signal : EnvironmentM Unit} (h : EndsIn signal env (.ok ((), f)))
    (a : α) : EndsIn (do signal; return a) env (.ok (a, f)) := by
  have hpure := h.before (endsIn_pure a)
  simpa [Except.map] using hpure

theorem EndsIn.bind_demand {a : α} {k : α → EnvironmentM β} {r : Except Violation β}
    (h : EndsIn steps env (.ok (a, f))) (hk : k a = demand r) :
    EndsIn (steps >>= k) env (r.map (·, f)) := by
  have hdemand : EndsIn (k a) (env.raise f) (Pattern.quietly r) := by
    rw [hk]
    exact endsIn_demand r
  have hbind := h.bind hdemand
  cases r with
  | error v => exact hbind
  | ok b => simpa [Except.map, Pattern.quietly] using hbind

/-- A value that is demanded first, and what follows for each. -/
theorem EndsIn.demand_bind {r : Except Violation α} {k : α → EnvironmentM β} {o : α → Outcome β}
    (hk : ∀ a, EndsIn (k a) env (o a)) : EndsIn (demand r >>= k) env (r.bind o) := by
  cases r with
  | error v => rfl
  | ok a => exact EndsIn.bind_quiet (endsIn_pure a) (hk a)

theorem EndsIn.ite {c : Prop} [Decidable c] {steps' : EnvironmentM α} {o' : Outcome α}
    (h : EndsIn steps env o) (h' : EndsIn steps' env o') :
    EndsIn (if c then steps else steps') env (if c then o else o') := by
  split_ifs
  · exact h
  · exact h'

theorem EndsIn.choose {mode? : Option RoundingMode} {k : RoundingMode → EnvironmentM α}
    (h : EndsIn (k (env.toContext.override mode?).mode) env o) :
    EndsIn (direction mode? >>= k) env o :=
  EndsIn.bind_quiet (endsIn_pure _) h

end EnvironmentM

namespace Stepwise

open EnvironmentM

variable {F : Format} {env : Environment} {mode? : Option RoundingMode}

/-- The result of rounding by the exponent together with everything that it raises. -/
def roundedByExponent (F : Format) (c : Context) (v : Exact.View) : Pattern F × Flags :=
  let infinity := Pattern.pack F v.sign F.infinityExponent 0
  if F.maxExponent < v.floorLog2 then
    (if c.mode.overflowsToInfinity v.sign then infinity
      else Pattern.pack F v.sign F.maxNormalExponent F.maxMantissa,
     Flags.of ∪ Flags.nx)
  else
    let r := v.cut c.mode (max v.floorLog2 F.minExponent)
    let checked := r.inexact || c.exceptions == .signalExactUnderflow
    let tiny := match c.tininess with
      | .beforeRounding => true
      | .afterRounding =>
        decide ((v.cut c.mode F.minExponent).significand < F.unit) ||
          decide ((v.cut c.mode (F.minExponent - 1)).exponent < F.minExponent)
    let flags := Flags.when (decide (v.floorLog2 < F.minExponent) && checked && tiny) Flags.uf ∪
      Flags.when r.inexact Flags.nx
    if F.maxExponent < r.exponent then (infinity, flags ∪ Flags.of)
    else if r.significand < F.unit then (Pattern.pack F v.sign 0 r.significand, flags)
    else (Pattern.pack F v.sign (r.exponent + F.bias).toNat r.significand, flags)

/-- The outcome of rounding. -/
def rounded (F : Format) (c : Context) (v : Exact.View) : Outcome (Pattern F) :=
  if v.isZero then .ok (Pattern.positiveZero F, ∅)
  else if v.sign = .negative ∧ F.signBit = false then
    .ok (Pattern.positiveZero F, Flags.nx ∪ Flags.uf)
  else
    (demandExponent F.bias).bind fun _ => (demandExponent F.maxNormalExponent).bind fun _ =>
      .ok (roundedByExponent F c v)

theorem rounded_view (c : Context) (v : Exact.Surd) : rounded F c (v.view F) = F.round c v := by
  have hmagnitude : roundedByExponent F c (v.view F) = F.roundMagnitude c v.sign v.magnitude := rfl
  rw [rounded, hmagnitude, Format.round, Format.rounding]
  change (if v.isZero then _ else if v.sign = .negative ∧ F.signBit = false then _ else _) = _
  by_cases hzero : v.isZero = true
  · simp [Format.looksAtExponent, hzero]
  · by_cases hsign : v.sign = .negative ∧ F.signBit = false
    · simp [Format.looksAtExponent, hzero, hsign]
    · have hlooks : F.looksAtExponent v = true := by
        simpa [Format.looksAtExponent, hzero, imp_iff_not_or] using hsign
      rw [if_neg hzero, if_neg hsign, if_pos hlooks, if_neg hzero, if_neg hsign,
        Format.demandLimits]
      cases demandExponent F.bias <;> rfl

theorem endsIn_isTiny (mode : RoundingMode) (v : Exact.View) :
    EndsIn (isTiny F mode v) env (.ok (match env.tininess with
      | .beforeRounding => true
      | .afterRounding =>
        decide ((v.cut mode F.minExponent).significand < F.unit) ||
          decide ((v.cut mode (F.minExponent - 1)).exponent < F.minExponent), ∅)) := by
  refine EndsIn.bind_quiet (a := env) (endsIn_pure env) ?_
  cases env.tininess with
  | afterRounding => exact endsIn_pure _
  | beforeRounding => exact endsIn_pure _

theorem endsIn_roundView (v : Exact.View) :
    EndsIn (roundView F mode? v) env (rounded F (env.toContext.override mode?) v) := by
  apply EndsIn.choose
  apply EndsIn.ite (endsIn_pure _)
  apply EndsIn.ite ((endsIn_raise _).before_pure _)
  refine EndsIn.demand_bind fun _ => EndsIn.demand_bind fun _ => ?_
  unfold roundedByExponent
  split_ifs with hlarge hinfinite
  · exact (endsIn_raise _).before_pure _
  · exact (endsIn_raise _).before_pure _
  -- The value is cut: underflow is raised first, then inexact, and last of all overflow.
  · refine EndsIn.bind_quiet (a := env) (endsIn_pure env) ?_
    refine EndsIn.bind_quiet (endsIn_isTiny _ v) ?_
    dsimp only
    split_ifs with hover hsmall
    · rw [Flags.union_assoc]
      exact (endsIn_raiseIf _ _).before
        ((endsIn_raiseIf _ _).before ((endsIn_raise _).before_pure _))
    · exact (endsIn_raiseIf _ _).before ((endsIn_raiseIf _ _).before_pure _)
    · exact (endsIn_raiseIf _ _).before ((endsIn_raiseIf _ _).before_pure _)

theorem endsIn_round (v : Exact.Surd) :
    EndsIn (round F mode? v) env (F.round (env.toContext.override mode?) v) := by
  rw [← rounded_view]
  exact endsIn_roundView (v.view F)

theorem endsIn_roundRat (q : Rat) :
    EndsIn (roundRat F mode? q) env (F.roundRat (env.toContext.override mode?) q) :=
  endsIn_round (Exact.Surd.ofRat q)

theorem endsIn_ofInteger (n : Int) :
    EndsIn (ofInteger F mode? n) env (Pattern.ofInteger F (env.toContext.override mode?) n) :=
  endsIn_round (Exact.Surd.ofInt n)

theorem endsIn_roundRoot (mode : RoundingMode) (q : Rat) :
    EndsIn (roundRoot F mode q) env
      (Pattern.roundRoot F (env.toContext.override (some mode)) q) :=
  endsIn_round _

theorem endsIn_ofSum (mode : RoundingMode) (q : Rat) :
    EndsIn (ofSum F mode q) env (Pattern.ofSum F (env.toContext.override (some mode)) q) :=
  .ite (endsIn_demand _) (endsIn_roundRat q)

theorem endsIn_invalid : EndsIn (invalid F) env (Pattern.invalid F) :=
  (endsIn_raise Flags.nv).before_pure _

theorem endsIn_propagate (operands : List (Pattern F)) (selected : Option (Pattern F)) :
    EndsIn (propagate operands selected) env
      (.ok (Pattern.nanFrom selected, Pattern.signaled operands)) :=
  (endsIn_raiseIf _ _).before_pure _

theorem endsIn_binaryNaN (x y : Pattern F) :
    EndsIn (binaryNaN x y) env (Pattern.binaryNaN x y) :=
  endsIn_propagate _ _

theorem endsIn_unaryNaN (mode : NaN.UnaryMode) (x : Pattern F) :
    EndsIn (unaryNaN mode x) env (Pattern.unaryNaN mode x) :=
  endsIn_propagate _ _

theorem endsIn_addTerm (x y : Pattern F) (yClass : NumberClass) (yRatio : Except Violation Rat) :
    EndsIn (addTerm mode? x y yClass yRatio) env
      (Pattern.addTerm (env.toContext.override mode?) x y yClass yRatio) := by
  apply EndsIn.choose
  apply EndsIn.ite (endsIn_binaryNaN x y)
  apply EndsIn.ite endsIn_invalid
  apply EndsIn.ite (endsIn_demand _)
  apply EndsIn.ite (endsIn_demand _)
  apply EndsIn.ite (endsIn_demand _)
  apply EndsIn.ite (endsIn_demand _)
  exact .demand_bind fun _ => .demand_bind fun _ => endsIn_ofSum _ _

theorem endsIn_add (x y : Pattern F) :
    EndsIn (add mode? x y) env (Pattern.add (env.toContext.override mode?) x y) :=
  endsIn_addTerm x y _ _

theorem endsIn_sub (x y : Pattern F) :
    EndsIn (sub mode? x y) env (Pattern.sub (env.toContext.override mode?) x y) :=
  endsIn_addTerm x y _ _

theorem endsIn_mul (x y : Pattern F) :
    EndsIn (mul mode? x y) env (Pattern.mul (env.toContext.override mode?) x y) := by
  apply EndsIn.choose
  apply EndsIn.ite (endsIn_binaryNaN x y)
  apply EndsIn.ite endsIn_invalid
  apply EndsIn.ite (endsIn_demand _)
  apply EndsIn.ite (endsIn_demand _)
  exact .demand_bind fun _ => .demand_bind fun _ => endsIn_roundRat _

theorem endsIn_div (x y : Pattern F) :
    EndsIn (div mode? x y) env (Pattern.div (env.toContext.override mode?) x y) := by
  apply EndsIn.choose
  apply EndsIn.ite (endsIn_binaryNaN x y)
  apply EndsIn.ite endsIn_invalid
  apply EndsIn.ite (endsIn_demand _)
  apply EndsIn.ite (endsIn_demand _)
  apply EndsIn.ite ((endsIn_raise _).bind_demand rfl)
  exact .demand_bind fun _ => .demand_bind fun _ => endsIn_roundRat _

theorem endsIn_remainder (x y : Pattern F) :
    EndsIn (remainder mode? x y) env (Pattern.remainder (env.toContext.override mode?) x y) := by
  apply EndsIn.choose
  apply EndsIn.ite (endsIn_binaryNaN x y)
  apply EndsIn.ite endsIn_invalid
  apply EndsIn.ite (.ite (endsIn_demand _) (.demand_bind fun _ => endsIn_roundRat _))
  exact .demand_bind fun _ => .demand_bind fun _ => .ite (endsIn_demand _) (endsIn_roundRat _)

/-- A signaling NaN raises nothing that the invalid operation does not raise as well. -/
theorem signaled_union_nv (operands : List (Pattern F)) :
    Pattern.signaled operands ∪ Flags.nv = Flags.nv := by
  unfold Pattern.signaled
  cases operands.any Pattern.isSignaling <;> rfl

theorem endsIn_signaled {α : Type} {steps : EnvironmentM α} {operands : List (Pattern F)}
    {a : α} (h : ∀ env : Environment, EndsIn steps env (.ok (a, Flags.nv))) :
    EndsIn (do raiseIf (operands.any Pattern.isSignaling) Flags.nv; steps) env
      (.ok (a, Flags.nv)) := by
  have hsteps := (endsIn_raiseIf (operands.any Pattern.isSignaling) Flags.nv).before
    (h (env.raise (Pattern.signaled operands)))
  change EndsIn _ env (.ok (a, Pattern.signaled operands ∪ Flags.nv)) at hsteps
  rwa [signaled_union_nv] at hsteps

theorem endsIn_fusedNaN (x y z : Pattern F) (infinityTimesZero : Bool) :
    EndsIn (fusedNaN x y z infinityTimesZero) env
      (Pattern.fusedNaN x y z infinityTimesZero) := by
  unfold fusedNaN Pattern.fusedNaN
  split_ifs with hz
  · cases F.platform.infinityTimesZeroPlusNaN with
    | canonicalAndInvalid => exact endsIn_signaled fun _ => endsIn_invalid
    | propagateAndInvalid => exact endsIn_signaled fun _ => (endsIn_raise Flags.nv).before_pure z
    | followPropagation => exact (endsIn_raiseIf _ _).before_pure _
  · exact (endsIn_raiseIf _ _).before_pure _

theorem endsIn_fusedMultiplyAdd (x y z : Pattern F) :
    EndsIn (fusedMultiplyAdd mode? x y z) env
      (Pattern.fusedMultiplyAdd (env.toContext.override mode?) x y z) := by
  apply EndsIn.choose
  apply EndsIn.ite (endsIn_fusedNaN x y z _)
  apply EndsIn.ite endsIn_invalid
  apply EndsIn.ite (endsIn_demand _)
  apply EndsIn.ite (endsIn_demand _)
  apply EndsIn.ite (endsIn_demand _)
  exact .demand_bind fun _ => .demand_bind fun _ => .demand_bind fun _ => endsIn_ofSum _ _

theorem endsIn_toInteger (exact : Bool) (x : Pattern F) :
    EndsIn (toInteger mode? exact x) env (x.toInteger (env.toContext.override mode?) exact) := by
  apply EndsIn.choose
  unfold Pattern.toInteger
  by_cases hsignaling : x.isSignaling = true
  · have hclass : x.classify = .signalingNaN := beq_iff_eq.mp hsignaling
    have hfinite : ¬x.isFinite = true := by
      rw [Pattern.isFinite, hclass]
      decide
    have hflags : Pattern.signaled [x] = Flags.nv := by
      simp [Pattern.signaled, Flags.when, hsignaling]
    rw [if_pos hsignaling, if_neg hfinite, hflags]
    exact (endsIn_raise Flags.nv).before_pure none
  · have hflags : Pattern.signaled [x] = ∅ := by
      simp [Pattern.signaled, Flags.when, hsignaling]
    rw [if_neg hsignaling, hflags]
    refine .ite ?_ (endsIn_pure none)
    exact .demand_bind fun q => (endsIn_raiseIf _ _).before_pure _

/-- The exceptions of the rounding are taken back together with its result. -/
theorem endsIn_toIntegerType (exact : Bool) (t : IntegerType) (x : Pattern F) :
    EndsIn (toIntegerType mode? exact t x) env
      (x.toIntegerType (env.toContext.override mode?) exact t) := by
  -- The last step puts other flags in place of those raised, so the rule for `>>=` does not apply.
  have hsteps : toIntegerType mode? exact t x env = (toInteger mode? exact x env).map fun r =>
      let n? := r.1.filter t.holds
      (n?, if n?.isNone then { r.2 with flags := env.flags ∪ Flags.nv } else r.2) := by
    change (toInteger mode? exact x env >>= fun r => _) = _
    cases toInteger mode? exact x env with
    | error v => rfl
    | ok r =>
      change (if (r.1.filter t.holds).isNone = true then _ else _ : EnvironmentM _) r.2 =
        .ok (_, if (r.1.filter t.holds).isNone = true then _ else _)
      split_ifs
      · rfl
      · rfl
  rw [EndsIn, hsteps, endsIn_toInteger exact x, Pattern.toIntegerType]
  rcases x.toInteger (env.toContext.override mode?) exact with v | ⟨_ | n, f⟩
  · rfl
  · rfl
  · cases hholds : t.holds n with
    | true => simp [Except.map, Option.filter, hholds]
    | false => simp [Except.map, Option.filter, hholds, Environment.raise]

theorem endsIn_roundToIntegral (exact : Bool) (x : Pattern F) :
    EndsIn (roundToIntegral mode? exact x) env
      (Pattern.roundToIntegral (env.toContext.override mode?) exact x) := by
  apply EndsIn.choose
  unfold Pattern.roundToIntegral
  split_ifs with hnan hinfinite
  · exact endsIn_unaryNaN _ x
  · exact endsIn_demand _
  · have hfinite : x.isFinite = true := by
      rw [Bool.not_eq_true] at hnan hinfinite
      change (!x.isNaN && !x.isInfinity) = true
      rw [hnan, hinfinite]
      rfl
    have hinteger : EndsIn (toInteger (some (env.toContext.override mode?).mode) exact x) env
        (x.toInteger (env.toContext.override mode?) exact) := endsIn_toInteger exact x
    rw [Pattern.toInteger, if_pos hfinite] at hinteger
    cases hratio : x.ratio with
    | error v =>
      rw [hratio] at hinteger
      exact hinteger.bind_error
    | ok q =>
      rw [hratio] at hinteger
      simp only [Except.map, Except.bind] at hinteger ⊢
      generalize (env.toContext.override mode?).mode.roundToInt q = r at hinteger ⊢
      rcases r with ⟨n, inexact⟩
      dsimp only at hinteger ⊢
      split_ifs with hzero
      · exact hinteger.bind_demand (if_pos hzero)
      · refine hinteger.bind ?_
        rw [Option.getD_some, if_neg hzero]
        exact endsIn_ofInteger n

theorem endsIn_next (d : Direction) (x : Pattern F) :
    EndsIn (next d x) env (x.next d) := by
  apply EndsIn.ite (endsIn_unaryNaN _ x)
  apply EndsIn.ite (.ite (endsIn_pure x) (endsIn_demand _))
  apply EndsIn.ite (endsIn_demand _)
  exact .ite (endsIn_demand _) (endsIn_pure _)

theorem endsIn_logB (x : Pattern F) : EndsIn (logB x) env (.ok x.logB) := by
  rw [Pattern.logB, apply_ite Except.ok, apply_ite Except.ok]
  apply EndsIn.ite ((endsIn_raise _).before_pure _)
  exact .ite (endsIn_pure _) (endsIn_pure _)

theorem endsIn_scaleB (scale : Int) (x : Pattern F) :
    EndsIn (scaleB mode? scale x) env
      (Pattern.scaleB (env.toContext.override mode?) scale x) := by
  apply EndsIn.choose
  apply EndsIn.ite (endsIn_unaryNaN _ x)
  apply EndsIn.ite (endsIn_demand _)
  apply EndsIn.ite (endsIn_demand _)
  exact .demand_bind fun _ => .demand_bind fun _ => endsIn_roundRat _

theorem endsIn_sqrt (x : Pattern F) :
    EndsIn (sqrt mode? x) env (Pattern.sqrt (env.toContext.override mode?) x) := by
  apply EndsIn.choose
  apply EndsIn.ite (endsIn_unaryNaN _ x)
  apply EndsIn.ite (endsIn_demand _)
  apply EndsIn.ite (endsIn_demand _)
  exact .ite endsIn_invalid (.demand_bind fun _ => endsIn_roundRoot _ _)

theorem endsIn_rsqrt (x : Pattern F) :
    EndsIn (rsqrt mode? x) env (Pattern.rsqrt (env.toContext.override mode?) x) := by
  apply EndsIn.choose
  apply EndsIn.ite (endsIn_unaryNaN _ x)
  apply EndsIn.ite ((endsIn_raise _).bind_demand rfl)
  apply EndsIn.ite (endsIn_pure _)
  exact .ite endsIn_invalid (.demand_bind fun _ => endsIn_roundRoot _ _)

theorem endsIn_convert {S : Format} (x : Pattern S) :
    EndsIn (convert F mode? x) env (x.convert F (env.toContext.override mode?)) := by
  apply EndsIn.choose
  refine .ite ?_ (.ite (endsIn_demand _) (.ite (endsIn_demand _) (.demand_bind fun _ =>
    endsIn_roundRat _)))
  have hflags : Pattern.signaled [x] = Flags.when x.isSignaling Flags.nv := by
    simp [Pattern.signaled]
  rw [hflags]
  cases F.platform.conversion with
  | alwaysCanonical => exact (endsIn_raiseIf _ _).before_pure _
  | retainMostSignificantBits => exact (endsIn_raiseIf _ _).before_pure _

end Stepwise
end HartFloat
