import HartFloat.Pattern.Neighbour
import HartFloat.Proofs.Arithmetic.Exceptions

/-!
# Adjacent values of a format

Two values of a format, infinities included, are adjacent if none lies between them. The relation is
the same seen from either of the two and from the other side of zero, so that the next value up and
the next one down, of either sign, all come from adjacent magnitudes. Those are a significand and
its successor in one binade, unless the significand is one that a finer binade has too.
-/
namespace HartFloat

/-- The number at the given distance from zero on the side of the sign. -/
noncomputable def Sign.orient : Sign → EReal → EReal
  | positive, a => a
  | negative, a => -a

theorem Sign.orient_coe (s : Sign) (r : ℝ) : s.orient r = ((s.factor * r : ℝ) : EReal) := by
  cases s <;> simp [orient, factor]

theorem Sign.orient_top (s : Sign) : s.orient ⊤ = s.infinity := by
  cases s
  · rfl
  · exact EReal.neg_top

namespace Format

/-- The second value is greater than the first, and no value of the format lies between them. -/
structure Adjacent (F : Format) (a b : EReal) : Prop where
  left : a ∈ F.extendedValues
  right : b ∈ F.extendedValues
  lt : a < b
  le_of_lt : ∀ w ∈ F.extendedValues, a < w → b ≤ w

/-- The second number is the next value of the format after the first one in the direction. -/
def IsNext (F : Format) (d : Direction) (a b : EReal) : Prop :=
  match d with
  | .up => IsLeast {w | w ∈ F.extendedValues ∧ a < w} b
  | .down => IsGreatest {w | w ∈ F.extendedValues ∧ w < a} b

variable {F : Format} {a b b' : EReal} {d : Direction} {r t : ℝ}

theorem IsNext.unique (hb : F.IsNext d a b) (hb' : F.IsNext d a b') : b = b' := by
  cases d
  · exact IsLeast.unique hb hb'
  · exact IsGreatest.unique hb hb'

theorem coe_mem_extendedValues (hr : r ∈ F.finiteValues) : (r : EReal) ∈ F.extendedValues :=
  Or.inr (Or.inr ⟨r, hr, rfl⟩)

theorem neg_mem_extendedValues (h : F.Regular) (ha : a ∈ F.extendedValues) :
    -a ∈ F.extendedValues := by
  obtain rfl | rfl | ⟨r, hr, rfl⟩ := ha
  · exact Or.inr (Or.inl EReal.neg_bot)
  · exact Or.inl EReal.neg_top
  · exact coe_mem_extendedValues (neg_mem_finiteValues h hr)

namespace Adjacent

theorem neg (h : F.Regular) (hab : F.Adjacent a b) : F.Adjacent (-b) (-a) where
  left := neg_mem_extendedValues h hab.right
  right := neg_mem_extendedValues h hab.left
  lt := EReal.neg_lt_neg_iff.mpr hab.lt
  le_of_lt w hw hlt := by
    have hneg : -w < b := EReal.neg_lt_comm.mp hlt
    refine EReal.neg_le.mp (not_lt.mp fun hlt' => ?_)
    exact (hab.le_of_lt (-w) (neg_mem_extendedValues h hw) hlt').not_gt hneg

theorem isNext_up (hab : F.Adjacent a b) : F.IsNext .up a b :=
  ⟨⟨hab.right, hab.lt⟩, fun w hw => hab.le_of_lt w hw.1 hw.2⟩

theorem isNext_down (hab : F.Adjacent a b) : F.IsNext .down b a := by
  refine ⟨⟨hab.left, hab.lt⟩, fun w hw => not_lt.mp fun hlt => ?_⟩
  exact (hab.le_of_lt w hw.1 hlt).not_gt hw.2

theorem isNext_outward (h : F.Regular) (hab : F.Adjacent a b) (d : Direction) :
    F.IsNext d (d.sign.orient a) (d.sign.orient b) := by
  cases d
  · exact hab.isNext_up
  · exact (hab.neg h).isNext_down

theorem isNext_inward (h : F.Regular) (hab : F.Adjacent a b) {s : Sign} (hs : s ≠ d.sign) :
    F.IsNext d (s.orient b) (s.orient a) := by
  cases d <;> cases s
  · exact absurd rfl hs
  · exact (hab.neg h).isNext_up
  · exact hab.isNext_down
  · exact absurd rfl hs

end Adjacent

theorem not_isNext_of_lt (hab : a < b) {s : Sign} (hs : s ≠ d.sign) :
    ¬F.IsNext d (s.orient a) (s.orient b) := by
  intro hnext
  cases d <;> cases s
  · exact absurd rfl hs
  · exact (EReal.neg_lt_neg_iff.mp hnext.1.2).not_gt hab
  · exact hnext.1.2.not_gt hab
  · exact absurd rfl hs

/-- A value is the next one down from the next one up, unless there is none up from it. -/
theorem IsNext.adjacent (ha : a ∈ F.extendedValues) (hb : F.IsNext .up a b) : F.Adjacent a b where
  left := ha
  right := hb.1.1
  lt := hb.1.2
  le_of_lt _ hw hlt := hb.2 ⟨hw, hlt⟩

theorem adjacent_coe (hr : r ∈ F.finiteValues) (ht : t ∈ F.finiteValues) (hlt : r < t)
    (hle : ∀ w ∈ F.finiteValues, r < w → t ≤ w) : F.Adjacent r t where
  left := coe_mem_extendedValues hr
  right := coe_mem_extendedValues ht
  lt := by exact_mod_cast hlt
  le_of_lt := by
    rintro w (rfl | rfl | ⟨w, hw, rfl⟩) hrw
    · exact absurd hrw not_lt_bot
    · exact le_top
    · exact_mod_cast hle w hw (by exact_mod_cast hrw)

theorem adjacent_largest_top (h : F.Regular) : F.Adjacent F.largest ⊤ where
  left := coe_mem_extendedValues (isGreatest_largest h).1
  right := Or.inr (Or.inl rfl)
  lt := EReal.coe_lt_top _
  le_of_lt := by
    rintro w (rfl | rfl | ⟨w, hw, rfl⟩) hlt
    · exact absurd hlt not_lt_bot
    · exact le_rfl
    · exact absurd (by exact_mod_cast hlt) ((isGreatest_largest h).2 hw).not_gt

/-- A significand is followed by its successor in the same binade, provided that it has its leading
bit set or belongs to the least binade. -/
theorem adjacent_significand (h : F.Regular) {n : ℕ} {k : ℤ}
    (hlead : F.unit ≤ n ∨ k = F.minExponent)
    (hmem : n * F.spacing k ∈ F.finiteValues) (hmem' : (n + 1) * F.spacing k ∈ F.finiteValues) :
    F.Adjacent ((n * F.spacing k : ℝ)) ((n + 1) * F.spacing k : ℝ) := by
  have hpos := spacing_pos (F := F) (e := k)
  refine adjacent_coe hmem hmem' (by linarith) fun w hw hlt => ?_
  obtain ⟨s, m, j, hm, hj, -, rfl⟩ := exists_of_mem_finiteValues h hw
  by_cases hjk : k ≤ j
  · -- A value of a coarser binade is a multiple of the spacing, and so at least the next one.
    obtain ⟨i, hi⟩ := exists_multiple (F := F) hjk (s.factor * m)
    push_cast at hi
    rw [hi] at hlt ⊢
    have hni : (n : ℤ) < i := by exact_mod_cast lt_of_mul_lt_mul_right hlt hpos.le
    refine mul_le_mul_of_nonneg_right ?_ hpos.le
    exact_mod_cast hni
  · -- A value of a finer binade does not come up to a significand with its leading bit set.
    have hunit : F.unit ≤ n := hlead.resolve_right (by omega)
    have hbound : (m : ℝ) * F.spacing j ≤ n * F.spacing k := by
      calc (m : ℝ) * F.spacing j
          ≤ (2 * F.unit : ℕ) * F.spacing j :=
            mul_le_mul_of_nonneg_right (by exact_mod_cast hm.le) spacing_pos.le
        _ = 2 ^ (j + 1) := F.two_unit_mul_spacing j
        _ ≤ 2 ^ k := zpow_le_zpow_right₀ one_le_two (by omega)
        _ = F.unit * F.spacing k := (F.unit_mul_spacing k).symm
        _ ≤ n * F.spacing k := mul_le_mul_of_nonneg_right (by exact_mod_cast hunit) hpos.le
    have habs : s.factor * (m : ℝ) * F.spacing j ≤ m * F.spacing j := by
      have := le_abs_self (s.factor * (m : ℝ) * F.spacing j)
      rwa [abs_mul, abs_mul, Sign.abs_factor, one_mul, Nat.abs_cast, abs_of_pos spacing_pos] at this
    exact absurd hlt (habs.trans hbound).not_gt

end Format
end HartFloat
