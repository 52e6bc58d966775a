import HartFloat.Pattern.Compare
import HartFloat.Proofs.Arithmetic.Operations
import HartFloat.Proofs.Backend.Unpacked

/-!
# Native comparison

Patterns and native numbers are compared as the numbers that they stand for. Native numbers are in
canonical form, in which the larger exponent belongs to the larger magnitude.
-/
namespace HartFloat

open Float.Model (UnpackedFloat)

/-- How two numbers compare. The infinities lie at the ends, and zeros have no sign. -/
def Number.compare : Number → Number → Ordering
  | finite _ p, finite _ q => Ord.compare p q
  | finite _ _, infinite t => Ord.compare 0 t.factor
  | infinite s, finite _ _ => Ord.compare s.factor 0
  | infinite s, infinite t => Ord.compare s.factor t.factor

theorem Number.compare_swap (a b : Number) : (a.compare b).swap = b.compare a := by
  cases a <;> cases b <;> exact Std.OrientedOrd.eq_swap.symm

namespace Pattern

variable {F : Format} {x y : Pattern F} {a b : Number}

theorem compareRat_eq (p q : ℚ) : compareRat p q = Ord.compare p q := by
  unfold compareRat
  split_ifs with hlt heq
  · exact (compare_lt_iff_lt.mpr hlt).symm
  · exact (compare_eq_iff_eq.mpr heq).symm
  · exact (compare_gt_iff_gt.mpr (lt_of_le_of_ne (not_lt.mp hlt) (Ne.symm heq))).symm

theorem order_eq (h : F.Regular) (hi : F.implicitLeadingBit = true) (hw : F.exponentWidth ≤ 63)
    (hx : x.number? = some a) (hy : y.number? = some b) : x.order y = .ok (a.compare b) := by
  have hxClass := isGivenBy_classify hi h hx
  have hyClass := isGivenBy_classify hi h hy
  cases a with
  | infinite s =>
    rw [Number.IsGivenBy] at hxClass
    cases b with
    | infinite t =>
      rw [Number.IsGivenBy] at hyClass
      rw [order, isInfinity, isInfinity, hxClass, hyClass]
      cases s <;> cases t <;> rfl
    | finite t q =>
      rw [order, isInfinity, isInfinity, hxClass]
      obtain ⟨-, ⟨-, hk⟩ | ⟨-, hk | hk⟩⟩ := hyClass <;> rw [hk] <;> cases s <;> cases t <;> rfl
  | finite s p =>
    cases b with
    | infinite t =>
      rw [Number.IsGivenBy] at hyClass
      rw [order, isInfinity, isInfinity, hyClass]
      obtain ⟨-, ⟨-, hk⟩ | ⟨-, hk | hk⟩⟩ := hxClass <;> rw [hk] <;> cases s <;> cases t <;> rfl
    | finite t q =>
      rw [order, isInfinity, isInfinity, hxClass.isInfinity_finite, hyClass.isInfinity_finite,
        ratio_eq hw, ratio_eq hw, hxClass.1, hyClass.1]
      exact congrArg Except.ok (compareRat_eq p q)

end Pattern

namespace Native

variable {a b : Number} {u v : UnpackedFloat} {m n : ℕ} {e f : ℤ}

theorem Canonical.lt_of_lt (h : Canonical m e) (h' : Canonical n f) (hef : e < f) :
    (m * 2 ^ e : ℚ) < n * 2 ^ f := by
  have hle := h.le
  exact Pattern.mul_two_zpow_lt h.lt (h'.normal_or_least.resolve_right (by omega)) hef

theorem Canonical.compare_eq (h : Canonical m e) (h' : Canonical n f) :
    (compare e f).then (compare m n) = compare (m * 2 ^ e : ℚ) (n * 2 ^ f) := by
  rcases lt_trichotomy e f with hef | rfl | hef
  · rw [compare_lt_iff_lt.mpr hef, compare_lt_iff_lt.mpr (h.lt_of_lt h' hef)]
    rfl
  · have hpow : (0 : ℚ) < 2 ^ e := zpow_pos two_pos e
    rw [compare_eq_iff_eq.mpr rfl]
    rcases lt_trichotomy m n with hmn | rfl | hmn
    · rw [compare_lt_iff_lt.mpr hmn, compare_lt_iff_lt.mpr (by gcongr)]
      rfl
    · rw [compare_eq_iff_eq.mpr rfl, compare_eq_iff_eq.mpr rfl]
      rfl
    · rw [compare_gt_iff_gt.mpr hmn, compare_gt_iff_gt.mpr (by gcongr)]
      rfl
  · rw [compare_gt_iff_gt.mpr hef, compare_gt_iff_gt.mpr (h'.lt_of_lt h hef)]
    rfl

theorem compare_neg_neg (p q : ℚ) : compare (-p) (-q) = (compare p q).swap := by
  rw [← Std.OrientedOrd.eq_swap]
  rcases lt_trichotomy p q with hpq | rfl | hpq
  · rw [compare_gt_iff_gt.mpr hpq, compare_gt_iff_gt.mpr (neg_lt_neg hpq)]
  · rw [compare_eq_iff_eq.mpr rfl, compare_eq_iff_eq.mpr rfl]
  · rw [compare_lt_iff_lt.mpr hpq, compare_lt_iff_lt.mpr (neg_lt_neg hpq)]

/-- A finite native number lies on the side of zero that its sign says. -/
theorem Canonical.compare_zero (h : Canonical m e) (s : Sign) :
    compare (s.factor * m * 2 ^ e : ℚ) 0 = compare s.factor 0 := by
  have hpos := h.value_pos
  cases s
  · refine compare_gt_iff_gt.mpr ?_
    rwa [Sign.factor, Int.cast_one, one_mul]
  · refine compare_lt_iff_lt.mpr ?_
    rwa [Sign.factor, Int.cast_neg, Int.cast_one, neg_one_mul, neg_mul, neg_lt_zero]

theorem Canonical.compare_finite (h : Canonical m e) (h' : Canonical n f) (s t : Sign) :
    (UnpackedFloat.finite s.native m e h.pos).compare (.finite t.native n f h'.pos) =
      some (compare (s.factor * m * 2 ^ e : ℚ) (t.factor * n * 2 ^ f)) := by
  have hm := h.value_pos
  have hn := h'.value_pos
  cases s <;> cases t <;> simp only [Sign.factor, Int.cast_neg, Int.cast_one, one_mul, neg_mul]
  · rw [← h.compare_eq h']
    rfl
  · rw [compare_gt_iff_gt.mpr (by linarith)]
    rfl
  · rw [compare_lt_iff_lt.mpr (by linarith)]
    rfl
  · rw [compare_neg_neg, ← h.compare_eq h']
    rfl

theorem Stands.compare (ha : Stands u a) (hb : Stands v b) : u.compare v = some (a.compare b) := by
  cases ha with
  | infinite s =>
    cases hb with
    | infinite t => cases s <;> cases t <;> rfl
    | zero t | finite t h hmax => cases s <;> rfl
  | zero s =>
    cases hb with
    | infinite t => cases t <;> rfl
    | zero t => rfl
    | finite t h hmax =>
      rw [Number.compare, Std.OrientedOrd.eq_swap, h.compare_zero]
      cases t <;> rfl
  | finite s h hmax =>
    cases hb with
    | infinite t => cases s <;> cases t <;> rfl
    | zero t =>
      rw [Number.compare, h.compare_zero]
      cases s <;> rfl
    | finite t h' hmax' => exact h.compare_finite h' s t

end Native

namespace Backend.Host

open Native

variable {a b : Word} {x y : Number}

theorem lt_iff (a b : Word) :
    ofWord a < ofWord b ↔ (unpack a).compare (unpack b) = some .lt := by
  rw [← unpack_ofWord, ← unpack_ofWord]
  change decide ((ofWord a).toModel.unpack.lt (ofWord b).toModel.unpack = true) = true ↔ _
  rw [decide_eq_true_iff, UnpackedFloat.lt, beq_iff_eq]

theorem beq_iff (a b : Word) :
    (ofWord a == ofWord b) = true ↔ (unpack a).compare (unpack b) = some .eq := by
  rw [← unpack_ofWord, ← unpack_ofWord]
  change (ofWord a).toModel.unpack.beq (ofWord b).toModel.unpack = true ↔ _
  rw [UnpackedFloat.beq, beq_iff_eq]

theorem order_eq_some (ha : (Soft.ofWord a).number? = some x)
    (hb : (Soft.ofWord b).number? = some y) : order a b = some (x.compare y) := by
  have hab := (stands_unpack ha).compare (stands_unpack hb)
  have hba := (stands_unpack hb).compare (stands_unpack ha)
  rw [← Number.compare_swap] at hba
  unfold order
  simp only [lt_iff, beq_iff, hab, hba]
  cases x.compare y <;> rfl

theorem order_eq_none (h : a.isNaN = true ∨ b.isNaN = true) : order a b = none := by
  have hnone : (unpack a).compare (unpack b) = none ∧ (unpack b).compare (unpack a) = none := by
    rcases h with h | h
    · rw [unpack_of_isNaN h]
      exact ⟨rfl, by cases unpack b <;> rfl⟩
    · rw [unpack_of_isNaN h]
      exact ⟨by cases unpack a <;> rfl, rfl⟩
  unfold order
  simp only [lt_iff, beq_iff, hnone]
  rfl

end Backend.Host
end HartFloat
