import HartFloat.Proofs.Arithmetic.Exceptions
import HartFloat.Proofs.Environment.Steps
import HartFloat.Proofs.NaN.Propagation

/-!
# An infinity times a zero plus a quiet NaN

A fused multiply-add of an infinity and a zero with a quiet NaN goes by a rule of the platform: it
propagates the NaN without an exception, it propagates the NaN and is invalid, or it gives the
canonical NaN and is invalid. Under the second rule the result is the addend as it is. That is the
NaN that the platform's mode prescribes unless the mode keeps no payloads: then the canonical NaN
is prescribed, and the addend is given all the same.
-/
namespace HartFloat

theorem NumberClass.isNaN_eq_false_of_isInfinity {k : NumberClass} (h : k.isInfinity = true) :
    k.isNaN = false := by
  revert h
  cases k <;> decide

theorem NumberClass.isNaN_eq_false_of_isZero {k : NumberClass} (h : k.isZero = true) :
    k.isNaN = false := by
  revert h
  cases k <;> decide

namespace Pattern

variable {F : Format} {x y z r : Pattern F} {k : NaN.Preference (Pattern F)} {f : Flags}

def IsInvalidProduct (x y : Pattern F) : Prop :=
  x.isInfinity = true ∧ y.isZero = true ∨ x.isZero = true ∧ y.isInfinity = true

theorem IsInvalidProduct.isNaN_eq_false (h : IsInvalidProduct x y) :
    x.isNaN = false ∧ y.isNaN = false := by
  rcases h with ⟨hx, hy⟩ | ⟨hx, hy⟩
  · exact ⟨NumberClass.isNaN_eq_false_of_isInfinity hx, NumberClass.isNaN_eq_false_of_isZero hy⟩
  · exact ⟨NumberClass.isNaN_eq_false_of_isZero hx, NumberClass.isNaN_eq_false_of_isInfinity hy⟩

theorem isNaN_of_quiet (hz : z.classify = .quietNaN) : z.isNaN = true := by
  rw [isNaN, hz]
  rfl

theorem isQuiet_msb_of_quiet (hz : z.classify = .quietNaN) :
    F.quietNaNFormat.isQuiet z.msb = true := by
  have hclass : z.magnitudeClass = .quietNaN := by
    rw [classify] at hz
    revert hz
    cases z.magnitudeClass <;> cases z.sign <;> simp [NumberClass.withSign, NumberClass.neg]
  unfold magnitudeClass at hclass
  split_ifs at hclass
  assumption

theorem bits_or_msb_of_quiet (hq : F.platform.canonicalMsb = true) (hz : z.classify = .quietNaN) :
    z.bits ||| F.msb = z.bits := by
  have hmsb := isQuiet_msb_of_quiet hz
  rw [quietNaNFormat_eq hq] at hmsb
  have htop : z.mantissa.testBit F.msbShift = true := by
    rw [Nat.testBit_eq_decide_div_mod_eq]
    exact hmsb
  have hbit : z.bits.testBit F.msbShift = true := by
    rw [mantissa, Nat.testBit_mod_two_pow, Bool.and_eq_true] at htop
    exact htop.2
  refine Nat.eq_of_testBit_eq fun i => ?_
  rw [Nat.testBit_or, Format.msb, Nat.testBit_two_pow]
  by_cases hi : F.msbShift = i
  · rw [← hi, hbit, Bool.true_or]
  · rw [decide_eq_false hi, Bool.or_false]

/-- Where payloads are kept a quiet NaN that is the only NaN among the operands is the result. -/
theorem Propagates.eq_of_only (h : Propagates k r f) (hq : F.platform.canonicalMsb = true)
    (hk : ¬k.alwaysCanonical) (hz : z.classify = .quietNaN)
    (honly : ∀ x ∈ k.operands, x.isNaN = true → x = z) : r = z := by
  obtain ⟨x, hmem, hnan, -, hbits⟩ := h.selected hk
  obtain rfl := honly x hmem hnan
  rw [Pattern.mk.injEq, hbits, bits_or_msb_of_quiet hq hz]

section

variable (hxy : IsInvalidProduct x y) (hz : z.classify = .quietNaN)

include hxy

theorem eq_addend_of_isNaN :
    ∀ w ∈ (F.platform.fusedMultiplyAdd.preference x y z).operands, w.isNaN = true → w = z := by
  obtain ⟨hx, hy⟩ := hxy.isNaN_eq_false
  simp [NaN.TernaryMode.preference, hx, hy]

include hz

theorem signaled_of_invalidProduct : signaled [x, y, z] = ∅ := by
  obtain ⟨hx, hy⟩ := hxy.isNaN_eq_false
  have hzSignaling : z.isSignaling = false := by
    rw [isSignaling, hz]
    rfl
  rw [signaled, List.any_cons, List.any_cons, List.any_cons, hzSignaling,
    isSignaling_eq_false_of_isNaN hx, isSignaling_eq_false_of_isNaN hy]
  rfl

theorem fusedMultiplyAdd_of_invalidProduct (c : Context) :
    fusedMultiplyAdd c x y z =
      match F.platform.infinityTimesZeroPlusNaN with
      | .followPropagation => .ok (nanFrom (F.platform.fusedMultiplyAdd.select classify x y z), ∅)
      | .propagateAndInvalid => .ok (z, Flags.nv)
      | .canonicalAndInvalid => .ok (canonicalNaN F, Flags.nv) := by
  have hproduct : (x.isInfinity && y.isZero || x.isZero && y.isInfinity) = true := by
    simpa [IsInvalidProduct] using hxy
  have hnan : (x.isNaN || y.isNaN || z.isNaN) = true := by
    rw [isNaN_of_quiet hz, Bool.or_true]
  have hrule : ((x.isInfinity && y.isZero || x.isZero && y.isInfinity) &&
      z.classify == .quietNaN) = true := by
    rw [hproduct, hz]
    rfl
  rw [fusedMultiplyAdd, if_pos hnan, fusedNaN, if_pos hrule, signaled_of_invalidProduct hxy hz]
  cases F.platform.infinityTimesZeroPlusNaN <;> rfl

variable (hm : 2 ≤ F.mantissaWidth) (hq : F.platform.canonicalMsb = true)

include hm hq

theorem propagates_select :
    Propagates (F.platform.fusedMultiplyAdd.preference x y z)
      (nanFrom (F.platform.fusedMultiplyAdd.select classify x y z)) ∅ := by
  rw [← signaled_of_invalidProduct hxy hz]
  exact propagates_nanFrom hm hq (F.platform.fusedMultiplyAdd.isComplete x y z)
    (F.platform.fusedMultiplyAdd.select_eq classify x y z)
    ⟨z, by simp [NaN.TernaryMode.preference], isNaN_of_quiet hz⟩

theorem propagates_addend_iff :
    Propagates (F.platform.fusedMultiplyAdd.preference x y z) z ∅ ↔
      (F.platform.fusedMultiplyAdd = .alwaysCanonical → z = canonicalNaN F) := by
  have hselect := propagates_select hxy hz hm hq
  constructor
  · exact fun h hmode => h.canonical hmode
  · intro h
    by_cases hmode : F.platform.fusedMultiplyAdd = .alwaysCanonical
    · rwa [hselect.canonical hmode, ← h hmode] at hselect
    · rwa [hselect.eq_of_only hq hmode hz (eq_addend_of_isNaN hxy)] at hselect

end

end Pattern

namespace Environment

open Pattern

variable {F : Format} {x y z : Pattern F}

/-- The fused operation, run on an infinity, a zero and a quiet NaN, propagates NaNs as the
platform's mode prescribes and is invalid or not, or is invalid and gives the canonical NaN,
whichever the platform's rule says. -/
structure FollowsRule (env : Environment) (mode? : Option RoundingMode) (x y z : Pattern F) :
    Prop where
  followPropagation (h : F.platform.infinityTimesZeroPlusNaN = .followPropagation) :
    ∃ r, env.run mode? (fun c => fusedMultiplyAdd c x y z) = .ok (r, env) ∧
      Pattern.Propagates (F.platform.fusedMultiplyAdd.preference x y z) r ∅
  propagateAndInvalid (h : F.platform.infinityTimesZeroPlusNaN = .propagateAndInvalid) :
    ∃ r, env.run mode? (fun c => fusedMultiplyAdd c x y z) = .ok (r, env.raise Flags.nv) ∧
      Pattern.Propagates (F.platform.fusedMultiplyAdd.preference x y z) r ∅
  canonicalAndInvalid (h : F.platform.infinityTimesZeroPlusNaN = .canonicalAndInvalid) :
    env.run mode? (fun c => fusedMultiplyAdd c x y z) = .ok (canonicalNaN F, env.raise Flags.nv)

/-- The platform's rule is followed, except that an invalid operation which is to propagate NaNs
gives the addend also where the mode prescribes the canonical NaN. -/
theorem run_followsRule_iff (hm : 2 ≤ F.mantissaWidth) (hq : F.platform.canonicalMsb = true)
    (hxy : IsInvalidProduct x y) (hz : z.classify = .quietNaN) (env : Environment)
    (mode? : Option RoundingMode) :
    (env.FollowsRule mode? x y z ↔
      (F.platform.infinityTimesZeroPlusNaN = .propagateAndInvalid →
        F.platform.fusedMultiplyAdd = .alwaysCanonical → z = canonicalNaN F)) ∧
    (F.platform.infinityTimesZeroPlusNaN = .propagateAndInvalid →
      env.run mode? (fun c => fusedMultiplyAdd c x y z) = .ok (z, env.raise Flags.nv)) := by
  have hrun := fusedMultiplyAdd_of_invalidProduct hxy hz (env.toContext.override mode?)
  have haddend (h : F.platform.infinityTimesZeroPlusNaN = .propagateAndInvalid) :
      env.run mode? (fun c => fusedMultiplyAdd c x y z) = .ok (z, env.raise Flags.nv) := by
    rw [run, hrun, h]
    rfl
  refine ⟨⟨fun h hrule => ?_, fun h => ⟨fun hrule => ?_, fun hrule => ?_, fun hrule => ?_⟩⟩,
    haddend⟩
  · obtain ⟨r, hr, hpropagates⟩ := h.propagateAndInvalid hrule
    rw [haddend hrule, Except.ok.injEq, Prod.mk.injEq] at hr
    obtain ⟨rfl, -⟩ := hr
    exact (propagates_addend_iff hxy hz hm hq).mp hpropagates
  · refine ⟨_, ?_, propagates_select hxy hz hm hq⟩
    rw [run, hrun, hrule]
    change Except.ok (_, env.raise ∅) = _
    rw [raise_empty]
  · exact ⟨z, haddend hrule, (propagates_addend_iff hxy hz hm hq).mpr (h hrule)⟩
  · rw [run, hrun, hrule]
    rfl

/-- In single precision, a quiet NaN with a payload on a platform that hands it on, and on one that
keeps no payloads but is to propagate NaNs. -/
theorem run_followsRule_iff_power :
    let F : Format := { Format.binary32 with platform := Platform.power }
    let infinity := pack F .negative 255 0
    let nan := pack F .positive 255 0x400001
    2 ≤ F.mantissaWidth ∧ F.platform.canonicalMsb = true ∧
      (IsInvalidProduct infinity (positiveZero F) ∧ nan.classify = .quietNaN) ∧
      (default : Environment).FollowsRule none infinity (positiveZero F) nan ∧
      (default : Environment).run none
        (fun c => fusedMultiplyAdd c infinity (positiveZero F) nan) =
          .ok (nan, (default : Environment).raise Flags.nv) := by
  intro F infinity nan
  have hm : 2 ≤ F.mantissaWidth := by decide
  have hproduct : IsInvalidProduct infinity (positiveZero F) := Or.inl (by decide +kernel)
  have hnan : nan.classify = .quietNaN := by decide +kernel
  obtain ⟨hfollows, hrun⟩ := run_followsRule_iff hm rfl hproduct hnan default none
  refine ⟨hm, rfl, ⟨hproduct, hnan⟩, hfollows.mpr fun _ hmode => ?_, hrun rfl⟩
  cases hmode

/-- Where payloads are not kept and the invalid operation is to propagate NaNs, a payload is kept
all the same. -/
theorem addend_handed_on_by_canonical_mode :
    ¬∀ F : Format, 2 ≤ F.mantissaWidth → F.signBit = true → F.platform.canonicalMsb = true →
      ∀ (env : Environment) (mode? : Option RoundingMode) (x y z : Pattern F),
        IsInvalidProduct x y → z.classify = .quietNaN → env.FollowsRule mode? x y z := by
  intro h
  let F : Format := { Format.binary32 with
    platform := { Platform.riscV with infinityTimesZeroPlusNaN := .propagateAndInvalid } }
  let infinity := pack F .positive 255 0
  let nan := pack F .positive 255 0x400001
  have hproduct : IsInvalidProduct infinity (positiveZero F) := Or.inl (by decide +kernel)
  have hnan : nan.classify = .quietNaN := by decide +kernel
  obtain ⟨r, hr, hpropagates⟩ :=
    (h F (by decide) rfl rfl default none infinity (positiveZero F) nan hproduct
      hnan).propagateAndInvalid rfl
  have haddend : (default : Environment).run none
      (fun c => fusedMultiplyAdd c infinity (positiveZero F) nan) =
        .ok (nan, (default : Environment).raise Flags.nv) := by
    rw [run, fusedMultiplyAdd_of_invalidProduct hproduct hnan]
    rfl
  rw [haddend, Except.ok.injEq, Prod.mk.injEq] at hr
  obtain ⟨rfl, -⟩ := hr
  have hcanonical : nan = canonicalNaN F := hpropagates.canonical rfl
  revert hcanonical
  decide +kernel

end Environment
end HartFloat
