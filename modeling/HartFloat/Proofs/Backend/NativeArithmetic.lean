import HartFloat.Proofs.Arithmetic.Operations
import HartFloat.Proofs.Backend.NativeRounding

/-!
# Native arithmetic

A native operation on numbers packs to the word that the exact operation calls for: both settle
infinities and zeros in the same way, and otherwise the native significand describes the exact
result before it is rounded.
-/
namespace HartFloat

open Float.Model (UnpackedFloat totalExponent)
open Backend.Soft (nearest toWord settle)

/-- The word that an exact result leads to when it is rounded to nearest. -/
def ExactResult.word (r : ExactResult) : Word :=
  toWord (settle (Pattern.canonicalNaN .binary32) (r.outcome .binary32 nearest)).1

namespace Native

variable {a b : Number} {u v : UnpackedFloat} {s t : Sign} {m n : ℕ} {e f : ℤ}

@[simp] theorem word_invalid : ExactResult.invalid.word = pack .notANumber := pack_notANumber.symm

@[simp] theorem word_infinite (s : Sign) :
    (ExactResult.infinite s).word = pack (.infinity s.native) := (pack_infinity s).symm

@[simp] theorem word_divisionByZero (s : Sign) :
    (ExactResult.divisionByZero s).word = pack (.infinity s.native) := (pack_infinity s).symm

@[simp] theorem word_zero (s : Sign) :
    (ExactResult.zero s).word = pack (.zero s.native) := (pack_zero s).symm

theorem word_value (q : ℚ) :
    (ExactResult.value q).word = toWord (Format.binary32.roundingRat nearest q).1 := by
  rw [ExactResult.word, ExactResult.outcome_value, Format.roundRat_eq (by decide)]
  rfl

/-- Native numbers are added in the smaller of their units, in which both are integers. -/
theorem signed_decreaseExponent (s : Sign) (m : ℕ) (h : f ≤ e) :
    (s.native.apply (UnpackedFloat.decreaseExponent m e f).1 : ℚ) * 2 ^ f =
      s.factor * m * 2 ^ e := by
  obtain ⟨k, hk⟩ := Int.eq_ofNat_of_zero_le (sub_nonneg.mpr h)
  obtain rfl : e = f + k := by omega
  rw [apply_native, UnpackedFloat.decreaseExponent, hk, Int.toNat_natCast, Nat.shiftLeft_eq,
    zpow_add₀ two_ne_zero, zpow_natCast]
  push_cast
  ring

theorem pack_finite_eq_word (s : Sign) (h : Canonical m e) :
    pack (.finite s.native m e h.pos) = (ExactResult.value (s.factor * m * 2 ^ e)).word := by
  rw [word_value, mul_assoc]
  exact pack_finite_eq_roundingRat s h

theorem add_of_ne_zero (s t : Sign) {p : ℚ} (hp : p ≠ 0) (q : ℚ) :
    (Number.finite s p).add .tiesToEven (.finite t q) =
      if p + q = 0 then .zero .positive else .value (p + q) := by
  rw [Number.add, if_neg (c := p = 0 ∧ s = t) fun hzero => hp hzero.1, ite_not]
  rfl

theorem pack_add_finite (s t : Sign) (h : Canonical m e) (h' : Canonical n f) :
    pack (UnpackedFloat.add single (.finite s.native m e h.pos) (.finite t.native n f h'.pos)) =
      ((Number.finite s (s.factor * m * 2 ^ e)).add .tiesToEven
        (.finite t (t.factor * n * 2 ^ f))).word := by
  have hsum := congrArg₂ (· + ·) (signed_decreaseExponent s m (min_le_left e f))
    (signed_decreaseExponent t n (min_le_right e f))
  rw [← add_mul, ← Int.cast_add] at hsum
  rw [add_of_ne_zero s t (h.signed_ne_zero s), ← hsum]
  have hpow : (2 : ℚ) ^ min e f ≠ 0 := zpow_ne_zero _ two_ne_zero
  simp only [mul_eq_zero, or_iff_left hpow, Int.cast_eq_zero]
  refine (pack_normalize (s.native.apply (UnpackedFloat.decreaseExponent m e (min e f)).1 +
    t.native.apply (UnpackedFloat.decreaseExponent n f (min e f)).1) _).trans ?_
  split_ifs with hzero
  · rw [word_zero, pack_zero]
  · rw [word_value]

theorem pack_add (ha : Stands u a) (hb : Stands v b) :
    pack (UnpackedFloat.add single u v) = (a.add .tiesToEven b).word := by
  cases ha with
  | infinite s =>
    cases hb with
    | infinite t =>
      rw [UnpackedFloat.add, native_beq, Number.add]
      by_cases hst : s = t <;> simp [hst]
    | zero t => exact (word_infinite s).symm
    | finite t h hmax => exact (word_infinite s).symm
  | zero s =>
    cases hb with
    | infinite t => exact (word_infinite t).symm
    | zero t =>
      rw [UnpackedFloat.add, native_beq, Number.add]
      by_cases hst : s = t
      · simp [hst]
      · simp [hst]
        rfl
    | finite t h hmax =>
      rw [Number.add, zero_add, if_pos (h.signed_ne_zero t)]
      exact pack_finite_eq_word t h
  | finite s h hmax =>
    cases hb with
    | infinite t => exact (word_infinite t).symm
    | zero t =>
      rw [Number.add, add_zero, if_pos (h.signed_ne_zero s)]
      exact pack_finite_eq_word s h
    | finite t h' hmax' => exact pack_add_finite s t h h'

theorem sub_eq_add (u v : UnpackedFloat) :
    UnpackedFloat.sub single u v = UnpackedFloat.add single u v.neg := by
  cases u with
  | infinity s => cases v <;> rfl
  | notANumber => cases v <;> rfl
  | zero s => cases v <;> rfl
  | finite s m e hm =>
    cases v with
    | infinity t => rfl
    | notANumber => rfl
    | zero t => rfl
    | finite t n f hn =>
      rw [UnpackedFloat.sub, UnpackedFloat.neg, UnpackedFloat.add]
      simp only [apply_neg, sub_eq_add_neg]

theorem Stands.neg (h : Stands u a) : Stands u.neg a.neg := by
  cases h with
  | infinite s =>
    rw [UnpackedFloat.neg, native_flip]
    exact .infinite s.flip
  | zero s =>
    rw [UnpackedFloat.neg, native_flip, Number.neg, neg_zero]
    exact .zero s.flip
  | finite s h hmax =>
    have hvalue := Stands.finite s.flip h hmax
    rw [Sign.factor_flip, Int.cast_neg, neg_mul, neg_mul] at hvalue
    rw [UnpackedFloat.neg, native_flip]
    exact hvalue

theorem pack_sub (ha : Stands u a) (hb : Stands v b) :
    pack (UnpackedFloat.sub single u v) = (a.sub .tiesToEven b).word := by
  rw [sub_eq_add]
  exact pack_add ha hb.neg

/-- A product of significands fills the format as soon as one of them does. -/
theorem mul_fills (h : Canonical m e) (h' : Canonical n f) :
    2 ^ 23 ≤ m * n ∨ e + f ≤ -149 := by
  rcases h.normal_or_least with hm | he
  · exact Or.inl (hm.trans (Nat.le_mul_of_pos_right m h'.pos))
  rcases h'.normal_or_least with hn | hf
  · exact Or.inl (hn.trans (Nat.le_mul_of_pos_left n h.pos))
  · exact Or.inr (by omega)

theorem pack_mul_finite (s t : Sign) (h : Canonical m e) (h' : Canonical n f) :
    pack (UnpackedFloat.mul single (.finite s.native m e h.pos) (.finite t.native n f h'.pos)) =
      (ExactResult.value (s.factor * m * 2 ^ e * (t.factor * n * 2 ^ f))).word := by
  have hpos : 0 < m * n := Nat.mul_pos h.pos h'.pos
  have hx : (0 : ℚ) < (m * n : ℕ) * 2 ^ (e + f) :=
    mul_pos (by exact_mod_cast hpos) (zpow_pos two_pos _)
  rw [UnpackedFloat.mul, native_mul,
    pack_roundWithAccuracy _ hx (describes_exact_of_eq (by push_cast; rfl))
      (le_roundingExponent (mul_fills h h') hpos), word_value, Sign.factor_mul,
      zpow_add₀ two_ne_zero]
  push_cast
  ring_nf

theorem pack_mul (ha : Stands u a) (hb : Stands v b) :
    pack (UnpackedFloat.mul single u v) = (a.mul b).word := by
  cases ha with
  | infinite s =>
    cases hb with
    | infinite t =>
      rw [UnpackedFloat.mul, native_mul]
      exact (word_infinite _).symm
    | zero t => simp [UnpackedFloat.mul, Number.mul, Number.product?]
    | finite t h hmax =>
      rw [UnpackedFloat.mul, native_mul, Number.mul, Number.product?, if_neg (h.signed_ne_zero t)]
      exact (word_infinite _).symm
  | zero s =>
    cases hb with
    | infinite t => simp [UnpackedFloat.mul, Number.mul, Number.product?]
    | zero t => simp [UnpackedFloat.mul, Number.mul, Number.product?, native_mul]
    | finite t h hmax => simp [UnpackedFloat.mul, Number.mul, Number.product?, native_mul]
  | finite s h hmax =>
    cases hb with
    | infinite t =>
      rw [UnpackedFloat.mul, native_mul, Number.mul, Number.product?, if_neg (h.signed_ne_zero s)]
      exact (word_infinite _).symm
    | zero t => simp [UnpackedFloat.mul, Number.mul, Number.product?, native_mul]
    | finite t h' hmax' =>
      rw [pack_mul_finite s t h h', Number.mul, Number.product?]
      dsimp only
      rw [if_neg (mul_ne_zero (h.signed_ne_zero s) (h'.signed_ne_zero t))]

/-- The remainder of a division says where the quotient lies above its integral part. -/
theorem describes_div (k : ℕ) (hn : 0 < n) :
    Describes (k / n) (UnpackedFloat.accuracyOfFraction (k % n) n) (k / n) := by
  have hnReal : (0 : ℝ) < n := by exact_mod_cast hn
  have hquotient : (k : ℝ) / n - (k / n : ℕ) = (k % n : ℕ) / n := by
    have hdivmod : (k : ℝ) = n * (k / n : ℕ) + (k % n : ℕ) := by
      exact_mod_cast (Nat.div_add_mod k n).symm
    field_simp
    linarith
  have hlt : ((k % n : ℕ) : ℝ) < n := by exact_mod_cast Nat.mod_lt k hn
  rw [Describes, hquotient, UnpackedFloat.accuracyOfFraction]
  split_ifs with hzero
  · rw [hzero]
    simp [excess, Exact.Excess.Describes]
  · have hpos : (0 : ℝ) < (k % n : ℕ) := by exact_mod_cast Nat.pos_of_ne_zero hzero
    have hrest : 1 - ((k % n : ℕ) : ℝ) / n = (n - (k % n : ℕ)) / n := by field_simp
    rcases lt_trichotomy (2 * (k % n)) n with hc | hc | hc
    · have hcReal : 2 * ((k % n : ℕ) : ℝ) < n := by exact_mod_cast hc
      rw [compare_lt_iff_lt.mpr hc]
      refine ⟨by positivity, ?_⟩
      rw [hrest]
      gcongr
      linarith
    · have hcReal : 2 * ((k % n : ℕ) : ℝ) = n := by exact_mod_cast hc
      rw [compare_eq_iff_eq.mpr hc]
      change _ = _
      rw [hrest]
      congr 1
      linarith
    · have hcReal : (n : ℝ) < 2 * ((k % n : ℕ) : ℝ) := by exact_mod_cast hc
      rw [compare_gt_iff_gt.mpr hc]
      refine ⟨?_, (div_lt_one hnReal).mpr hlt⟩
      rw [hrest]
      gcongr
      linarith

/-- The logarithm of a quotient is at most one below the difference of the logarithms. -/
theorem sub_le_log_div (hm : 0 < m) (hn : 0 < n) (e f : ℤ) :
    m.log2 + e - (n.log2 + 1 + f) ≤ Int.log 2 ((m : ℝ) * 2 ^ e / (n * 2 ^ f)) := by
  have hx : (0 : ℝ) < m * 2 ^ e / (n * 2 ^ f) := by positivity
  have hlo : (2 : ℝ) ^ m.log2 ≤ m := by exact_mod_cast Nat.log2_self_le hm.ne'
  have hhi : (n : ℝ) ≤ 2 ^ (n.log2 + 1) := by exact_mod_cast Nat.lt_log2_self.le
  refine (Int.zpow_le_iff_le_log one_lt_two hx).mp ?_
  rw [zpow_sub₀ (Nat.cast_ne_zero.mpr two_ne_zero), Nat.cast_ofNat]
  have hnum : (2 : ℝ) ^ ((m.log2 : ℤ) + e) ≤ m * 2 ^ e := by
    rw [zpow_add₀ two_ne_zero, zpow_natCast]
    gcongr
  have hden : (n : ℝ) * 2 ^ f ≤ 2 ^ ((n.log2 : ℤ) + 1 + f) := by
    rw [zpow_add₀ two_ne_zero, ← Nat.cast_succ, zpow_natCast]
    gcongr
  gcongr

theorem pack_div_finite (s t : Sign) (h : Canonical m e) (h' : Canonical n f) :
    pack (UnpackedFloat.div single (.finite s.native m e h.pos) (.finite t.native n f h'.pos)) =
      (ExactResult.value (s.factor * m * 2 ^ e / (t.factor * n * 2 ^ f))).word := by
  have hx : (0 : ℚ) < m * 2 ^ e / (n * 2 ^ f) := div_pos h.value_pos h'.value_pos
  have hvalue : (s.factor * m * 2 ^ e / (t.factor * n * 2 ^ f) : ℚ) =
      (s.mul t).factor * (m * 2 ^ e / (n * 2 ^ f)) := by
    cases s <;> cases t <;> simp [Sign.factor, Sign.mul, Sign.flip, neg_div, div_neg]
  obtain ⟨target, htarget⟩ : ∃ target, target = min (e - f)
    (single.targetExponent (totalExponent m e - totalExponent n f)) := ⟨_, rfl⟩
  obtain ⟨k, hk⟩ := Int.eq_ofNat_of_zero_le
    (sub_nonneg.mpr (htarget.trans_le (min_le_left _ _)))
  have hcore : UnpackedFloat.divCore single m e n f =
      (m <<< k / n, target, UnpackedFloat.accuracyOfFraction (m <<< k % n) n) := by
    rw [UnpackedFloat.divCore, ← htarget, hk]
    rfl
  have hquotient : ((m * 2 ^ e / (n * 2 ^ f) : ℚ) : ℝ) / 2 ^ target = (m <<< k : ℕ) / n := by
    obtain rfl : e = f + target + k := by omega
    have hnReal : (n : ℝ) ≠ 0 := by exact_mod_cast h'.pos.ne'
    rw [Nat.shiftLeft_eq, zpow_add₀ two_ne_zero, zpow_add₀ two_ne_zero, zpow_natCast]
    push_cast
    field_simp
  have hle : target ≤
      Format.binary32.roundingExponent ((m * 2 ^ e / (n * 2 ^ f) : ℚ) : ℝ) - 23 := by
    have hlog := sub_le_log_div h.pos h'.pos e f
    have hmax : target ≤ max (totalExponent m e - totalExponent n f - 24) (-149) :=
      htarget.trans_le (min_le_right _ _)
    rw [roundingExponent_eq (by exact_mod_cast hx)]
    push_cast
    unfold totalExponent at hmax
    omega
  rw [UnpackedFloat.div, hcore, native_div]
  dsimp only
  rw [pack_roundWithAccuracy _ hx (hquotient ▸ describes_div _ h'.pos) hle, word_value, hvalue]

theorem pack_div (ha : Stands u a) (hb : Stands v b) :
    pack (UnpackedFloat.div single u v) = (a.div b).word := by
  cases ha with
  | infinite s =>
    cases hb with
    | infinite t => exact word_invalid.symm
    | zero t =>
      rw [UnpackedFloat.div, native_div]
      exact (word_infinite _).symm
    | finite t h hmax =>
      rw [UnpackedFloat.div, native_div]
      exact (word_infinite _).symm
  | zero s =>
    cases hb with
    | infinite t =>
      rw [UnpackedFloat.div, native_div]
      exact (word_zero _).symm
    | zero t => simp [UnpackedFloat.div, Number.div]
    | finite t h hmax => simp [UnpackedFloat.div, Number.div, native_div, h.signed_ne_zero t]
  | finite s h hmax =>
    cases hb with
    | infinite t =>
      rw [UnpackedFloat.div, native_div]
      exact (word_zero _).symm
    | zero t => simp [UnpackedFloat.div, Number.div, native_div, h.signed_ne_zero s]
    | finite t h' hmax' =>
      rw [pack_div_finite s t h h', Number.div, if_neg fun hzero => h.signed_ne_zero s hzero.1,
        if_neg (h'.signed_ne_zero t), if_neg (h.signed_ne_zero s)]

end Native
end HartFloat
