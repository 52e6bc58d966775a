import HartFloat.Proofs.Arithmetic.Unsigned
import HartFloat.Proofs.NaN.Canonical

/-!
# Patterns of opposite sign

Two patterns are opposite when they differ in the sign alone. Opposite operands have opposite
classes and values, and a rounding direction seen from the other side of zero takes an opposite
value to the opposite pattern with the same exceptions. So a difference is the sum with the
opposite pattern, and a product changes its sign with a factor. NaN results are no exception where
payloads are not kept.
-/
namespace HartFloat

namespace Sign

theorem mul_comm (s t : Sign) : s.mul t = t.mul s := by
  cases s <;> cases t <;> rfl

theorem flip_mul (s t : Sign) : s.flip.mul t = (s.mul t).flip := by
  cases s <;> cases t <;> rfl

theorem ofInt_neg {n : ℤ} (hn : n ≠ 0) : ofInt (-n) = (ofInt n).flip := by
  unfold ofInt
  rcases hn.lt_or_gt with h | h
  · rw [if_neg (by omega), if_pos h]
    rfl
  · rw [if_pos (by omega), if_neg (by omega)]
    rfl

end Sign

namespace NumberClass

theorem withSign_flip (k : NumberClass) (s : Sign) : k.withSign s.flip = (k.withSign s).neg := by
  cases s
  · rfl
  · exact (neg_neg k).symm

@[simp] theorem isInfinity_neg (k : NumberClass) : k.neg.isInfinity = k.isInfinity := by
  cases k <;> rfl

@[simp] theorem isZero_neg (k : NumberClass) : k.neg.isZero = k.isZero := by
  cases k <;> rfl

@[simp] theorem isSubnormalOrZero_neg (k : NumberClass) :
    k.neg.isSubnormalOrZero = k.isSubnormalOrZero := by
  cases k <;> rfl

end NumberClass

namespace RoundingMode

theorem roundsUp_flip (mode : RoundingMode) (s : Sign) (odd : Bool) (ex : Exact.Excess) :
    mode.flip.roundsUp s.flip odd ex = mode.roundsUp s odd ex := by
  cases mode <;> cases s <;> cases ex <;> rfl

theorem overflowsToInfinity_flip (mode : RoundingMode) (s : Sign) :
    mode.flip.overflowsToInfinity s.flip = mode.overflowsToInfinity s := by
  cases mode <;> cases s <;> rfl

theorem roundToNat_flip (mode : RoundingMode) (s : Sign) (x : Exact.Magnitude) :
    mode.flip.roundToNat s.flip x = mode.roundToNat s x := by
  rw [roundToNat, roundsUp_flip]
  rfl

end RoundingMode

/-- The context whose direction is seen from the other side of zero. -/
def Context.flip (c : Context) : Context := { c with mode := c.mode.flip }

theorem Exact.Surd.ofRat_neg {q : ℚ} (hq : q ≠ 0) :
    ofRat (-q) = ⟨(ofRat q).sign.flip, (ofRat q).magnitude⟩ := by
  simp only [ofRat, Rat.num_neg_eq_neg_num, Rat.den_neg_eq_den, Int.natAbs_neg,
    Sign.ofInt_neg (Rat.num_ne_zero.mpr hq)]

namespace Pattern

variable {F : Format} {x x' y y' z : Pattern F} {c : Context} {q : ℚ}

/-- The second pattern is the first one with the other sign. -/
structure IsOpposite (x x' : Pattern F) : Prop where
  sign : x'.sign = x.sign.flip
  exponent : x'.exponent = x.exponent
  mantissa : x'.mantissa = x.mantissa

theorem isOpposite_pack (hs : F.signBit = true) (s : Sign) (e m : ℕ) :
    IsOpposite (pack F s e m) (pack F s.flip e m) where
  sign := by rw [sign_pack hs, sign_pack hs]
  exponent := by rw [exponent_pack, exponent_pack]
  mantissa := by rw [mantissa_pack, mantissa_pack]

namespace IsOpposite

theorem unique (hs : F.signBit = true) (h : IsOpposite x y) (h' : IsOpposite x z) : y = z :=
  eq_of_fields hs (h.sign.trans h'.sign.symm) (h.exponent.trans h'.exponent.symm)
    (h.mantissa.trans h'.mantissa.symm)

variable (h : IsOpposite x x')

include h

theorem classify : x'.classify = x.classify.neg := by
  have hclass : x'.magnitudeClass = x.magnitudeClass := by
    unfold magnitudeClass msb
    rw [h.exponent, h.mantissa]
  rw [Pattern.classify, hclass, h.sign]
  exact NumberClass.withSign_flip _ _

theorem isNaN : x'.isNaN = x.isNaN := by
  rw [Pattern.isNaN, h.classify]
  exact NumberClass.isNaN_neg _

theorem isSignaling : x'.isSignaling = x.isSignaling := by
  rw [Pattern.isSignaling, h.classify]
  exact NumberClass.isSignaling_neg _

theorem isInfinity : x'.isInfinity = x.isInfinity := by
  rw [Pattern.isInfinity, h.classify]
  exact NumberClass.isInfinity_neg _

theorem isZero : x'.isZero = x.isZero := by
  rw [Pattern.isZero, h.classify]
  exact NumberClass.isZero_neg _

theorem value : x'.value = -x.value := by
  have hclass : x'.classify.isSubnormalOrZero = x.classify.isSubnormalOrZero := by
    rw [h.classify, NumberClass.isSubnormalOrZero_neg]
  have hsig : x'.significand = x.significand := by
    rw [significand, significand, hclass, h.mantissa]
  have hexp : x'.effectiveExponent = x.effectiveExponent := by
    rw [effectiveExponent, effectiveExponent, hclass, h.exponent]
  rw [value_eq, value_eq, hsig, hexp, h.sign, Sign.factor_flip]
  push_cast
  ring

end IsOpposite

/-- The same exceptions come with patterns of opposite sign. -/
def AreOpposite (r r' : Pattern F × Flags) : Prop := IsOpposite r.1 r'.1 ∧ r'.2 = r.2

end Pattern

namespace Format

open Pattern

variable {F : Format}

theorem roundAt_flip (F : Format) (mode : RoundingMode) (s : Sign) (x : Exact.Magnitude) (e : ℤ) :
    F.roundAt mode.flip s.flip x e = F.roundAt mode s x e := by
  rw [roundAt, RoundingMode.roundToNat_flip]
  rfl

theorem isTiny_flip (F : Format) (c : Context) (s : Sign) (x : Exact.Magnitude) :
    F.isTiny c.flip s.flip x = F.isTiny c s x := by
  simp only [isTiny, Context.flip, roundAt_flip]

theorem areOpposite_roundMagnitude (hs : F.signBit = true) (c : Context) (s : Sign)
    (x : Exact.Magnitude) :
    AreOpposite (F.roundMagnitude c s x) (F.roundMagnitude c.flip s.flip x) := by
  have hmode : c.flip.mode = c.mode.flip := rfl
  have hexceptions : c.flip.exceptions = c.exceptions := rfl
  simp only [roundMagnitude, isTiny_flip, hmode, hexceptions, roundAt_flip,
    RoundingMode.overflowsToInfinity_flip]
  split_ifs
  · exact ⟨isOpposite_pack hs _ _ _, rfl⟩
  · exact ⟨isOpposite_pack hs _ _ _, rfl⟩
  · exact ⟨isOpposite_pack hs _ _ _, rfl⟩
  · exact ⟨isOpposite_pack hs _ _ _, rfl⟩
  · exact ⟨isOpposite_pack hs _ _ _, rfl⟩

theorem areOpposite_roundingRat (hs : F.signBit = true) (c : Context) {q : ℚ} (hq : q ≠ 0) :
    AreOpposite (F.roundingRat c q) (F.roundingRat c.flip (-q)) := by
  have hzero := Exact.Surd.isZero_ofRat hq
  have hzero' : (⟨(Exact.Surd.ofRat q).sign.flip, (Exact.Surd.ofRat q).magnitude⟩ :
      Exact.Surd).isZero = false := hzero
  rw [roundingRat, roundingRat, Exact.Surd.ofRat_neg hq, rounding, rounding, hzero, hzero']
  simp only [Bool.false_eq_true, if_false, hs, reduceCtorEq, and_false]
  exact areOpposite_roundMagnitude hs c _ _

end Format

namespace Pattern

variable {F : Format} {x x' y y' : Pattern F} {c : Context}

section

variable (hp : F.platform.binaryOperations = .alwaysCanonical)

include hp

theorem binaryNaN_congr (h : x'.isSignaling = x.isSignaling) (h' : y'.isSignaling = y.isSignaling) :
    binaryNaN x' y' = binaryNaN x y := by
  simp only [binaryNaN_of_alwaysCanonical hp, signaled, List.any_cons, h, h']

theorem binaryNaN_comm (x y : Pattern F) : binaryNaN x y = binaryNaN y x := by
  rw [binaryNaN_of_alwaysCanonical hp, binaryNaN_of_alwaysCanonical hp, signaled, signaled,
    (List.Perm.swap x y []).any_eq]

theorem sub_eq_add_of_isOpposite (hw : F.exponentWidth ≤ 63) (c : Context) (x : Pattern F)
    (hy : IsOpposite y y') : sub c x y = add c x y' := by
  rw [sub, add, addTerm, addTerm, hy.classify, ratio_eq hw, ratio_eq hw, ratio_eq hw, hy.value,
    binaryNaN_congr hp rfl hy.isSignaling]
  rfl

theorem add_of_isOpposite_of_isNaN (c : Context) (y : Pattern F) (hx : IsOpposite x x')
    (hnan : x.isNaN = true) : add c x' y = add c x y := by
  have hnan' : x'.isNaN = true := hx.isNaN.trans hnan
  have hop : add ∈ [add (F := F), sub, mul, div, remainder] := List.mem_cons_self
  rw [eq_binaryNaN hop (Or.inl hnan), eq_binaryNaN hop (Or.inl hnan'),
    binaryNaN_congr hp hx.isSignaling rfl]

theorem add_comm_of_alwaysCanonical (hw : F.exponentWidth ≤ 63) (c : Context) (x y : Pattern F) :
    add c x y = add c y x := by
  have hinfinities : (x.classify.isInfinity && y.classify.isInfinity && x.classify != y.classify) =
      (y.classify.isInfinity && x.classify.isInfinity && y.classify != x.classify) := by
    rw [Bool.and_comm x.classify.isInfinity, bne_comm]
  simp only [add, addTerm, ratio_eq hw, Except.bind, binaryNaN_comm hp x y, hinfinities,
    Bool.or_comm x.classify.isNaN,
    Bool.or_comm (x.classify == .positiveInfinity), Bool.or_comm (x.classify == .negativeInfinity),
    Bool.and_comm (x.classify == .positiveZero), Bool.and_comm (x.classify == .negativeZero),
    add_comm x.value]

theorem mul_comm_of_alwaysCanonical (hw : F.exponentWidth ≤ 63) (c : Context) (x y : Pattern F) :
    mul c x y = mul c y x := by
  have hinvalid : (x.isInfinity && y.isZero || x.isZero && y.isInfinity) =
      (y.isInfinity && x.isZero || y.isZero && x.isInfinity) := by
    rw [Bool.or_comm, Bool.and_comm x.isZero, Bool.and_comm x.isInfinity]
  simp only [mul, ratio_eq hw, Except.bind, binaryNaN_comm hp x y, hinvalid,
    Bool.or_comm x.isNaN, Bool.or_comm x.isZero, Bool.or_comm x.isInfinity, Sign.mul_comm x.sign,
    mul_comm x.value]

/-- A product changes its sign with a factor, unless it is the canonical NaN. -/
theorem mul_of_isOpposite (hs : F.signBit = true) (hw : F.exponentWidth ≤ 63) (c : Context)
    (y : Pattern F) (hx : IsOpposite x x') :
    ∃ r r', mul c x y = .ok r ∧ mul c.flip x' y = .ok r' ∧
      (AreOpposite r r' ∨ r.1 = canonicalNaN F ∧ r' = r) := by
  have hsigned (s : Sign) (e m : ℕ) : signed F s e m = .ok (pack F s e m) := by
    simp [signed, hs]
  simp only [mul, hx.isNaN, hx.isInfinity, hx.isZero, hx.sign, hx.value, Sign.flip_mul,
    binaryNaN_congr hp hx.isSignaling rfl, binaryNaN_of_alwaysCanonical hp, zero, infinity, hsigned,
    ratio_eq hw, Except.bind, Format.roundRat_eq hw]
  split_ifs with hnan hinvalid hzero hinfinity
  · exact ⟨_, _, rfl, rfl, Or.inr ⟨rfl, rfl⟩⟩
  · exact ⟨_, _, rfl, rfl, Or.inr ⟨rfl, rfl⟩⟩
  · exact ⟨_, _, rfl, rfl, Or.inl ⟨isOpposite_pack hs _ _ _, rfl⟩⟩
  · exact ⟨_, _, rfl, rfl, Or.inl ⟨isOpposite_pack hs _ _ _, rfl⟩⟩
  · have hq : x.value * y.value ≠ 0 := by
      simp only [Bool.or_eq_true, not_or, Bool.not_eq_true] at hnan hzero hinfinity
      have hxFinite := isFinite_iff.mpr ⟨hnan.1, hinfinity.1⟩
      have hyFinite := isFinite_iff.mpr ⟨hnan.2, hinfinity.2⟩
      rw [mul_ne_zero_iff, ne_eq, ne_eq, value_eq_zero_iff hxFinite, value_eq_zero_iff hyFinite,
        hzero.1, hzero.2]
      decide
    rw [neg_mul]
    exact ⟨_, _, rfl, rfl, Or.inl (Format.areOpposite_roundingRat hs c hq)⟩

end

end Pattern
end HartFloat
