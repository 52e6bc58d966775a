import HartFloat.Environment
import HartFloat.Proofs.Arithmetic.Operations

/-!
# Propagation of NaNs

On a platform whose quiet NaNs have the top mantissa bit set, an operation with a NaN among its
operands has one quiet NaN as its result. It is the operand that the platform's mode selects, with
that bit set and nothing else changed, or the canonical NaN if the mode always gives that one. The
operation is invalid exactly if one of the operands is a signaling NaN.
-/
namespace HartFloat

/-- The element is the first one of the list with the property. -/
def IsFirst {α : Type} (p : α → Prop) (xs : List α) (x : α) : Prop :=
  ∃ before after, xs = before ++ x :: after ∧ p x ∧ ∀ y ∈ before, ¬p y

theorem isFirst_of_find? {α : Type} {p : α → Bool} {xs : List α} {x : α}
    (h : xs.find? p = some x) : IsFirst (p · = true) xs x := by
  obtain ⟨hp, before, after, hxs, hbefore⟩ := List.find?_eq_some_iff_append.mp h
  refine ⟨before, after, hxs, hp, ?_⟩
  intro y hy hpy
  simpa [hpy] using hbefore y hy

namespace NaN

/-- A clause of what is said about a mode: the result uses the payload of the operand if that is a
NaN, or only if it is a signaling one. -/
inductive Clause (α : Type)
  | ifNaN (x : α)
  | ifSignaling (x : α)

namespace Clause

variable {α : Type}

def operand : Clause α → α
  | ifNaN x | ifSignaling x => x

def applies (classOf : α → NumberClass) : Clause α → Bool
  | ifNaN x => (classOf x).isNaN
  | ifSignaling x => (classOf x).isSignaling

/-- The operand of the first clause that applies. -/
def taken (classOf : α → NumberClass) (clauses : List (Clause α)) : Option α :=
  (clauses.find? (applies classOf)).map operand

end Clause

open Clause (ifNaN ifSignaling)

variable {α : Type}

/-- What is said about each mode, clause by clause. Where no clause applies, the result is the
canonical NaN. -/
def UnaryMode.clauses (mode : UnaryMode) (a : α) : List (Clause α) :=
  match mode with
  | alwaysCanonical => []
  | first => [ifNaN a]

def BinaryMode.clauses (mode : BinaryMode) (a b : α) : List (Clause α) :=
  match mode with
  | alwaysCanonical => []
  | firstSecond => [ifNaN a, ifNaN b]
  | secondFirst => [ifNaN b, ifNaN a]
  | firstSecondPreferringSNaN => [ifSignaling a, ifSignaling b, ifNaN a, ifNaN b]
  | secondFirstPreferringSNaN => [ifSignaling b, ifSignaling a, ifNaN b, ifNaN a]

def TernaryMode.clauses (mode : TernaryMode) (a b c : α) : List (Clause α) :=
  match mode with
  | alwaysCanonical => []
  | firstSecondThird => [ifNaN a, ifNaN b, ifNaN c]
  | firstThirdSecond => [ifNaN a, ifNaN c, ifNaN b]
  | secondFirstThird => [ifNaN b, ifNaN a, ifNaN c]
  | secondThirdFirst => [ifNaN b, ifNaN c, ifNaN a]
  | thirdFirstSecond => [ifNaN c, ifNaN a, ifNaN b]
  | thirdSecondFirst => [ifNaN c, ifNaN b, ifNaN a]
  | firstSecondThirdPreferringSNaN =>
    [ifSignaling a, ifSignaling b, ifSignaling c, ifNaN a, ifNaN b, ifNaN c]
  | firstThirdSecondPreferringSNaN =>
    [ifSignaling a, ifSignaling c, ifSignaling b, ifNaN a, ifNaN c, ifNaN b]
  | secondFirstThirdPreferringSNaN =>
    [ifSignaling b, ifSignaling a, ifSignaling c, ifNaN b, ifNaN a, ifNaN c]
  | secondThirdFirstPreferringSNaN =>
    [ifSignaling b, ifSignaling c, ifSignaling a, ifNaN b, ifNaN c, ifNaN a]
  | thirdFirstSecondPreferringSNaN =>
    [ifSignaling c, ifSignaling a, ifSignaling b, ifNaN c, ifNaN a, ifNaN b]
  | thirdSecondFirstPreferringSNaN =>
    [ifSignaling c, ifSignaling b, ifSignaling a, ifNaN c, ifNaN b, ifNaN a]

theorem choose_eq (preferSignaling : Bool) (classOf : α → NumberClass) (xs : List α) :
    choose preferSignaling classOf xs =
      Clause.taken classOf
        ((if preferSignaling then xs.map ifSignaling else []) ++ xs.map ifNaN) := by
  have hnan : (xs.map ifNaN).find? (Clause.applies classOf) =
      (xs.find? fun x => (classOf x).isNaN).map ifNaN := List.find?_map
  have hsignaling : (xs.map ifSignaling).find? (Clause.applies classOf) =
      (xs.find? fun x => (classOf x).isSignaling).map ifSignaling := List.find?_map
  have hoperand (o : Option α) (f : α → Clause α) (hf : ∀ x, (f x).operand = x) :
      (o.map f).map Clause.operand = o := by
    cases o <;> simp [hf]
  rw [choose, Clause.taken, List.find?_append, Option.map_or, hnan, hoperand _ _ fun _ => rfl]
  cases preferSignaling with
  | false => rfl
  | true => rw [if_pos rfl, if_pos rfl, hsignaling, hoperand _ _ fun _ => rfl]

/-- A mode selects what is said about it. -/
theorem UnaryMode.select_eq (mode : UnaryMode) (classOf : α → NumberClass) (a : α) :
    mode.select classOf a = Clause.taken classOf (mode.clauses a) := by
  rw [select, choose_eq]
  cases mode <;> rfl

theorem BinaryMode.select_eq (mode : BinaryMode) (classOf : α → NumberClass) (a b : α) :
    mode.select classOf a b = Clause.taken classOf (mode.clauses a b) := by
  rw [select, choose_eq]
  cases mode <;> rfl

theorem TernaryMode.select_eq (mode : TernaryMode) (classOf : α → NumberClass) (a b c : α) :
    mode.select classOf a b c = Clause.taken classOf (mode.clauses a b c) := by
  rw [select, choose_eq]
  cases mode <;> rfl

/-- What a mode makes of the operands of an operation: whether the result is the canonical NaN in
any case, and otherwise the clauses that decide. -/
structure Preference (α : Type) where
  operands : List α
  alwaysCanonical : Prop
  clauses : List (Clause α)

/-- The clauses speak about the operands and leave no NaN out, unless the result is the canonical
NaN in any case. -/
structure Preference.IsComplete (k : Preference α) : Prop where
  clauses_eq_nil : k.alwaysCanonical → k.clauses = []
  operand_mem : ∀ c ∈ k.clauses, c.operand ∈ k.operands
  ifNaN_mem : ¬k.alwaysCanonical → ∀ x ∈ k.operands, ifNaN x ∈ k.clauses

def UnaryMode.preference (mode : UnaryMode) (a : α) : Preference α :=
  ⟨[a], mode = .alwaysCanonical, mode.clauses a⟩

def BinaryMode.preference (mode : BinaryMode) (a b : α) : Preference α :=
  ⟨[a, b], mode = .alwaysCanonical, mode.clauses a b⟩

def TernaryMode.preference (mode : TernaryMode) (a b c : α) : Preference α :=
  ⟨[a, b, c], mode = .alwaysCanonical, mode.clauses a b c⟩

theorem UnaryMode.isComplete (mode : UnaryMode) (a : α) : (mode.preference a).IsComplete := by
  cases mode <;> constructor <;> simp [preference, clauses, Clause.operand]

theorem BinaryMode.isComplete (mode : BinaryMode) (a b : α) :
    (mode.preference a b).IsComplete := by
  cases mode <;> constructor <;> simp [preference, clauses, Clause.operand]

theorem TernaryMode.isComplete (mode : TernaryMode) (a b c : α) :
    (mode.preference a b c).IsComplete := by
  cases mode <;> constructor <;> simp [preference, clauses, Clause.operand]

end NaN

namespace Pattern

variable {F : Format} {x y z : Pattern F} {k : NaN.Preference (Pattern F)}

/-- The pattern is the operand that gives its payload to the result: that of the first clause that
applies. -/
def IsPreferred (k : NaN.Preference (Pattern F)) (x : Pattern F) : Prop :=
  ∃ c, IsFirst (·.applies classify = true) k.clauses c ∧ c.operand = x

/-- What a platform with the standard quiet NaNs makes of operands with a NaN among them. The sign
and the payload of the selected operand stay as they are. -/
structure Propagates (k : NaN.Preference (Pattern F)) (y : Pattern F) (f : Flags) : Prop where
  quiet : y.classify = .quietNaN
  canonical : k.alwaysCanonical → y = canonicalNaN F
  selected : ¬k.alwaysCanonical →
    ∃ x ∈ k.operands, x.isNaN = true ∧ IsPreferred k x ∧ y.bits = x.bits ||| F.msb
  signaled : f = if ∃ x ∈ k.operands, x.isSignaling = true then Flags.nv else ∅

theorem isNaN_of_isSignaling (h : x.isSignaling = true) : x.isNaN = true := by
  rw [isSignaling, NumberClass.isSignaling, beq_iff_eq] at h
  rw [isNaN, h]
  rfl

theorem isNaN_classify_iff (k : NumberClass) (s : Sign) :
    (k.withSign s).isNaN = true ↔ k = .quietNaN ∨ k = .signalingNaN := by
  cases k <;> cases s <;> decide

theorem isNaN_iff : x.isNaN = true ↔
    F.infinityExponent ≠ 0 ∧ x.exponent = F.infinityExponent ∧ x.mantissa ≠ 0 := by
  rw [isNaN, classify, isNaN_classify_iff, magnitudeClass]
  split_ifs with hzero hm hexp hm hquiet hi hm hnormal
  all_goals simp_all
  all_goals omega

theorem classify_eq_quietNaN (hzero : F.infinityExponent ≠ 0)
    (hexp : x.exponent = F.infinityExponent) (hm : x.mantissa ≠ 0)
    (hquiet : F.quietNaNFormat.isQuiet x.msb = true) : x.classify = .quietNaN := by
  have hclass : x.magnitudeClass = .quietNaN := by
    rw [magnitudeClass, if_neg (hexp ▸ hzero), if_pos hexp, if_neg hm, if_pos hquiet]
  rw [classify, hclass]
  cases x.sign <;> rfl

theorem or_two_pow {m k : ℕ} (h : m < 2 * 2 ^ k) : m ||| 2 ^ k = m % 2 ^ k + 2 ^ k := by
  have hrest : m % 2 ^ k < 2 ^ k := Nat.mod_lt _ (Nat.two_pow_pos k)
  have hset : m % 2 ^ k + 2 ^ k = 2 ^ k ||| m % 2 ^ k := by
    have := Nat.two_pow_add_eq_or_of_lt hrest 1
    rw [mul_one] at this
    rw [← this, Nat.add_comm]
  by_cases hm : m < 2 ^ k
  · rw [hset, Nat.mod_eq_of_lt hm, Nat.or_comm]
  · have hsplit : m = m % 2 ^ k + 2 ^ k := by
      rw [Nat.mod_eq_sub_mod (not_lt.mp hm), Nat.mod_eq_of_lt (by omega)]
      omega
    calc m ||| 2 ^ k = 2 ^ k ||| m % 2 ^ k ||| 2 ^ k := by rw [← hset, ← hsplit]
      _ = 2 ^ k ||| m % 2 ^ k := by rw [Nat.or_comm, ← Nat.or_assoc, Nat.or_self]
      _ = m % 2 ^ k + 2 ^ k := hset.symm

theorem bits_withFields {e m : ℕ} (he : e < 2 ^ F.exponentWidth) (hm : m < 2 ^ F.mantissaWidth) :
    (x.withFields e m).bits =
      2 ^ F.mantissaWidth * (x.topDigit * 2 ^ F.exponentWidth + e) + m := by
  have hdigit : signDigit (if x.topDigit = 0 then .positive else .negative) = x.topDigit := by
    have := x.topDigit_lt
    split_ifs with hzero
    · exact hzero.symm
    · rw [signDigit]
      omega
  rw [withFields, bits_pack, hdigit, Nat.mod_eq_of_lt he, Nat.mod_eq_of_lt hm, mul_comm]

section

variable (hm : 2 ≤ F.mantissaWidth) (hq : F.platform.canonicalMsb = true)

include hq in
theorem quietNaNFormat_eq : F.quietNaNFormat = .standard := by
  rw [Format.quietNaNFormat, Platform.quietNaNFormat, if_pos hq]

include hm hq

theorem quieted_eq (x : Pattern F) :
    x.quieted = x.withFields F.infinityExponent (x.mantissa ||| F.msb) := by
  obtain ⟨htwo, -⟩ := two_mul_msb hm
  have hlt : x.mantissa < 2 * F.msb := htwo ▸ x.mantissa_lt
  rw [quieted, quietNaNFormat_eq hq]
  exact congrArg (x.withFields F.infinityExponent) (or_two_pow hlt).symm

theorem bits_quieted (hx : x.isNaN = true) : x.quieted.bits = x.bits ||| F.msb := by
  obtain ⟨htwo, -⟩ := two_mul_msb hm
  obtain ⟨-, hexp, -⟩ := isNaN_iff.mp hx
  have hmsb : F.msb < 2 ^ F.mantissaWidth := Nat.pow_lt_pow_right (by omega) (by
    unfold Format.msbShift
    omega)
  have hmant : x.mantissa ||| F.msb < 2 ^ F.mantissaWidth := Nat.or_lt_two_pow x.mantissa_lt hmsb
  rw [quieted_eq hm hq, bits_withFields (Format.lt_two_pow_iff.mpr le_rfl) hmant, bits_eq x, hexp,
    Nat.two_pow_add_eq_or_of_lt hmant, Nat.two_pow_add_eq_or_of_lt x.mantissa_lt, Nat.or_assoc]

theorem classify_quieted (hx : x.isNaN = true) : x.quieted.classify = .quietNaN := by
  obtain ⟨htwo, hmsb⟩ := two_mul_msb hm
  obtain ⟨hzero, -, -⟩ := isNaN_iff.mp hx
  have hlt : x.mantissa < 2 * F.msb := htwo ▸ x.mantissa_lt
  have hrest : x.mantissa % F.msb < F.msb := Nat.mod_lt _ (by omega)
  have hmant : x.quieted.mantissa = x.mantissa % F.msb + F.msb := by
    rw [quieted_eq hm hq, withFields, mantissa_pack, Format.msb, or_two_pow hlt, ← Format.msb,
      Nat.mod_eq_of_lt (by omega)]
  have hexp : x.quieted.exponent = F.infinityExponent := by
    rw [quieted_eq hm hq, withFields, exponent_pack_infinity]
  refine classify_eq_quietNaN hzero hexp (by omega) ?_
  rw [quietNaNFormat_eq hq, msb, hmant, Nat.add_div_right _ (by omega), Nat.div_eq_of_lt hrest]
  rfl

end

theorem isPreferred_of_taken (h : NaN.Clause.taken classify k.clauses = some x) :
    IsPreferred k x := by
  obtain ⟨c, hc, hx⟩ := Option.map_eq_some_iff.mp h
  exact ⟨c, isFirst_of_find? hc, hx⟩

theorem IsPreferred.mem (h : IsPreferred k x) (hk : k.IsComplete) : x ∈ k.operands := by
  obtain ⟨c, ⟨before, after, hclauses, -⟩, rfl⟩ := h
  exact hk.operand_mem c (by simp [hclauses])

theorem IsPreferred.isNaN (h : IsPreferred k x) : x.isNaN = true := by
  obtain ⟨c, ⟨-, -, -, happlies, -⟩, rfl⟩ := h
  cases c with
  | ifNaN x => exact happlies
  | ifSignaling x => exact isNaN_of_isSignaling happlies

/-- Some operand is selected if there is a NaN among those that a clause asks for. -/
theorem exists_taken {clauses : List (NaN.Clause (Pattern F))}
    (h : ∃ x, .ifNaN x ∈ clauses ∧ x.isNaN = true) :
    ∃ x, NaN.Clause.taken classify clauses = some x := by
  obtain ⟨x, hmem, hx⟩ := h
  have hfinds : (clauses.find? (·.applies classify)).isSome = true :=
    List.find?_isSome.mpr ⟨_, hmem, hx⟩
  obtain ⟨c, hc⟩ := Option.isSome_iff_exists.mp hfinds
  exact ⟨c.operand, by rw [NaN.Clause.taken, hc, Option.map_some]⟩

theorem choose_nil (b : Bool) : NaN.choose b (classify (F := F)) [] = none := by
  cases b <;> rfl

section

variable (hm : 2 ≤ F.mantissaWidth) (hq : F.platform.canonicalMsb = true)

include hm hq

theorem propagates_nanFrom {selected : Option (Pattern F)} (hk : k.IsComplete)
    (hselected : selected = NaN.Clause.taken classify k.clauses)
    (hnan : ∃ x ∈ k.operands, x.isNaN = true) :
    Propagates k (nanFrom selected) (signaled k.operands) := by
  subst hselected
  have hsignaled : signaled k.operands =
      if ∃ x ∈ k.operands, x.isSignaling = true then Flags.nv else ∅ := by
    simp only [signaled, Flags.when, List.any_eq_true]
  by_cases hcanonical : k.alwaysCanonical
  · obtain ⟨nan, -, hx⟩ := hnan
    rw [hk.clauses_eq_nil hcanonical]
    exact ⟨classify_canonicalNaN hm (isNaN_iff.mp hx).1, fun _ => rfl, absurd hcanonical,
      hsignaled⟩
  · obtain ⟨nan, hmem, hx⟩ := hnan
    obtain ⟨x, htaken⟩ := exists_taken ⟨nan, hk.ifNaN_mem hcanonical nan hmem, hx⟩
    have hpreferred : IsPreferred k x := isPreferred_of_taken htaken
    rw [htaken]
    refine ⟨classify_quieted hm hq hpreferred.isNaN, fun h => absurd h hcanonical, fun _ => ?_,
      hsignaled⟩
    exact ⟨x, hpreferred.mem hk, hpreferred.isNaN, hpreferred,
      bits_quieted hm hq hpreferred.isNaN⟩

end

end Pattern

namespace Environment

open Pattern

variable {F : Format} {env : Environment} {mode? : Option RoundingMode}

/-- The operation, run in the environment, propagates NaNs according to the preference. -/
def Propagates (env : Environment) (mode? : Option RoundingMode)
    (op : Context → Outcome (Pattern F)) (k : NaN.Preference (Pattern F)) : Prop :=
  ∃ y f, env.run mode? op = .ok (y, env.raise f) ∧ Pattern.Propagates k y f

/-- All operations propagate NaNs as the platform of the format says, except that a fused
multiply-add of an infinity and a zero with a quiet NaN follows a rule of its own. -/
structure PropagatesNaNs (F : Format) (env : Environment) (mode? : Option RoundingMode) :
    Prop where
  binary (x y : Pattern F) (h : x.isNaN = true ∨ y.isNaN = true) :
    ∀ op ∈ [add, sub, mul, div, remainder], env.Propagates mode? (fun c => op c x y)
      (F.platform.binaryOperations.preference x y)
  fusedMultiplyAdd (x y z : Pattern F) (h : x.isNaN = true ∨ y.isNaN = true ∨ z.isNaN = true)
    (hother : ¬((x.isInfinity = true ∧ y.isZero = true ∨ x.isZero = true ∧ y.isInfinity = true) ∧
      z.classify = .quietNaN)) :
    env.Propagates mode? (fun c => Pattern.fusedMultiplyAdd c x y z)
      (F.platform.fusedMultiplyAdd.preference x y z)
  roundToIntegral (exact : Bool) (x : Pattern F) (h : x.isNaN = true) :
    env.Propagates mode? (fun c => Pattern.roundToIntegral c exact x)
      (F.platform.roundToIntegral.preference x)
  next (d : Direction) (x : Pattern F) (h : x.isNaN = true) :
    env.Propagates mode? (fun _ => Pattern.next d x) (F.platform.neighbour.preference x)
  scaleB (scale : ℤ) (x : Pattern F) (h : x.isNaN = true) :
    env.Propagates mode? (fun c => Pattern.scaleB c scale x) (F.platform.scaling.preference x)
  sqrt (x : Pattern F) (h : x.isNaN = true) :
    env.Propagates mode? (fun c => Pattern.sqrt c x) (F.platform.squareRoot.preference x)
  rsqrt (x : Pattern F) (h : x.isNaN = true) :
    env.Propagates mode? (fun c => Pattern.rsqrt c x)
      (F.platform.reciprocalSquareRoot.preference x)

theorem Propagates.of_eq {op : Context → Outcome (Pattern F)} {k : NaN.Preference (Pattern F)}
    {y : Pattern F} {f : Flags} (hop : ∀ c, op c = .ok (y, f)) (h : Pattern.Propagates k y f) :
    env.Propagates mode? op k := by
  refine ⟨y, f, ?_, h⟩
  rw [run, hop]
  rfl

section

variable (hm : 2 ≤ F.mantissaWidth) (hq : F.platform.canonicalMsb = true)

include hm hq

theorem propagates_unaryNaN {op : Context → Outcome (Pattern F)} {mode : NaN.UnaryMode}
    {x : Pattern F} (hx : x.isNaN = true) (hop : ∀ c, op c = unaryNaN mode x) :
    env.Propagates mode? op (mode.preference x) := by
  refine .of_eq hop (propagates_nanFrom hm hq (mode.isComplete x) (mode.select_eq classify x) ?_)
  exact ⟨x, List.mem_singleton_self x, hx⟩

theorem propagates_binaryNaN {op : Context → Outcome (Pattern F)} {x y : Pattern F}
    (h : x.isNaN = true ∨ y.isNaN = true) (hop : ∀ c, op c = binaryNaN x y) :
    env.Propagates mode? op (F.platform.binaryOperations.preference x y) := by
  have hmode := F.platform.binaryOperations.select_eq classify x y
  refine .of_eq hop (propagates_nanFrom hm hq (NaN.BinaryMode.isComplete _ x y) hmode ?_)
  simpa [NaN.BinaryMode.preference] using h

/-- On operands with a NaN among them the result is the quiet NaN of the operand that the platform
selects, or the canonical NaN, and only a signaling NaN makes an operation invalid. -/
theorem run_propagatesNaNs (env : Environment) (mode? : Option RoundingMode) :
    env.PropagatesNaNs F mode? where
  binary x y h op hop := propagates_binaryNaN hm hq h (eq_binaryNaN hop h)
  fusedMultiplyAdd x y z h hother := by
    have hnan : (x.isNaN || y.isNaN || z.isNaN) = true := by simpa [or_assoc] using h
    have hmode := F.platform.fusedMultiplyAdd.select_eq classify x y z
    refine .of_eq (fun c => ?_)
      (propagates_nanFrom hm hq (NaN.TernaryMode.isComplete _ x y z) hmode ?_)
    · rw [Pattern.fusedMultiplyAdd, if_pos hnan, fusedNaN, if_neg]
      · rfl
      · simpa using hother
    · simpa [NaN.TernaryMode.preference] using h
  roundToIntegral exact x h := propagates_unaryNaN hm hq h fun _ => if_pos h
  next d x h := propagates_unaryNaN hm hq h fun _ => if_pos h
  scaleB scale x h := propagates_unaryNaN hm hq h fun _ => if_pos h
  sqrt x h := propagates_unaryNaN hm hq h fun _ => if_pos h
  rsqrt x h := propagates_unaryNaN hm hq h fun _ => if_pos h

end

/-- A quiet and a signaling NaN in single precision, as operands of a sum, and the signaling one
with an infinity and a zero, on a platform that prefers signaling NaNs. -/
theorem run_propagatesNaNs_arm :
    let F : Format := { Format.binary32 with platform := Platform.arm }
    let x := pack F .positive 255 0x400005
    let y := pack F .negative 255 3
    let infinity := pack F .negative 255 0
    2 ≤ F.mantissaWidth ∧ F.platform.canonicalMsb = true ∧
      (x.classify = .quietNaN ∧ y.classify = .signalingNaN) ∧
      (default : Environment).Propagates none (fun c => x.add c y)
        (Platform.arm.binaryOperations.preference x y) ∧
      (default : Environment).Propagates none
        (fun c => Pattern.fusedMultiplyAdd c infinity (positiveZero F) y)
        (Platform.arm.fusedMultiplyAdd.preference infinity (positiveZero F) y) := by
  intro F x y infinity
  have hm : 2 ≤ F.mantissaWidth := by decide
  have hclass : x.classify = .quietNaN ∧ y.classify = .signalingNaN := by decide +kernel
  have hy : y.isNaN = true := by decide +kernel
  have hpropagates := @run_propagatesNaNs F hm rfl default none
  refine ⟨hm, rfl, hclass, ?_, ?_⟩
  · exact hpropagates.binary x y (Or.inr hy) add List.mem_cons_self
  · refine hpropagates.fusedMultiplyAdd infinity (positiveZero F) y (Or.inr (Or.inr hy)) ?_
    rw [hclass.2]
    rintro ⟨-, hquiet⟩
    cases hquiet

end Environment
end HartFloat
