import HartFloat.Proofs.Registers.Access

/-!
# Registers do not share memory

The registers of a bank lie at least one word apart, and the two banks have windows of their own.
A write therefore replaces the word of one register and leaves the other 63 as they were. Whether a
read or a write succeeds is the same question, and what has been written before does not matter.
-/
namespace HartFloat

/-- Both banks start at a word address. -/
def Layout.Aligned (l : Layout) : Prop := ∀ b, (l.base b).toNat % 4 = 0

theorem Layout.aligned_default : ({} : Layout).Aligned := by
  intro b
  cases b <;> decide

namespace RegisterFile

/-- Registers in the given layout, with any bytes in the windows. -/
def holding (l : Layout) (data : ∀ b, Vector (BitVec 8) (l.windowSize b)) : RegisterFile where
  layout := l
  floatWindow := ⟨l.base .float, l.windowSize .float, data .float⟩
  integerWindow := ⟨l.base .integer, l.windowSize .integer, data .integer⟩

theorem fits_holding {l : Layout} (h : l.Acceptable)
    (data : ∀ b, Vector (BitVec 8) (l.windowSize b)) : (holding l data).Fits :=
  ⟨h, fun b => by cases b <;> rfl, fun b => by cases b <;> rfl⟩

variable {r r' : RegisterFile} {b b' : Bank} {i i' : ℕ} {w : Word}

@[simp] theorem window_withWindow_same (v : Window) : (r.withWindow b v).window b = v := by
  cases b <;> rfl

theorem window_withWindow_other (v : Window) (h : b' ≠ b) :
    (r.withWindow b v).window b' = r.window b' := by
  cases b <;> cases b' <;> simp_all [withWindow, window]

@[simp] theorem layout_withWindow (v : Window) : (r.withWindow b v).layout = r.layout := by
  cases b <;> rfl

theorem write_eq_ok_iff :
    r.write b i w = .ok r' ↔
      i < registerCount ∧
        ∃ v, (r.window b).store (r.layout.address b i) w = .ok v ∧ r' = r.withWindow b v := by
  unfold write
  split_ifs with hi
  · cases (r.window b).store (r.layout.address b i) w with
    | error e => simp [Except.map, Except.mapError]
    | ok v => simp [Except.map, Except.mapError, hi, eq_comm]
  · simp [hi]

theorem Fits.address_ne (h : r.Fits) (b : Bank) (hi : i < registerCount) (hi' : i' < registerCount)
    (hne : i' ≠ i) : r.layout.address b i' ≠ r.layout.address b i := by
  intro heq
  have hsum := congrArg BitVec.toNat heq
  have hstride := h.acceptable.four_le_stride b
  rw [h.acceptable.address_toNat b hi, h.acceptable.address_toNat b hi', Nat.add_left_cancel_iff]
    at hsum
  exact hne (Nat.eq_of_mul_eq_mul_right (by omega) hsum)

theorem read_write_same (hw : r.write b i w = .ok r') : r'.read b i = .ok w := by
  obtain ⟨hi, v, hv, rfl⟩ := write_eq_ok_iff.mp hw
  simp [read, hi, Window.load_store_same hv, Except.mapError]

/-- A write leaves every other register of either bank as it was. -/
theorem Fits.read_write_other (h : r.Fits) (hw : r.write b i w = .ok r')
    (hne : (b', i') ≠ (b, i)) : r'.read b' i' = r.read b' i' := by
  obtain ⟨hi, v, hv, rfl⟩ := write_eq_ok_iff.mp hw
  unfold read
  rw [layout_withWindow]
  by_cases hb : b' = b
  · subst hb
    have hne' : i' ≠ i := fun heq => hne (by rw [heq])
    split_ifs with hi'
    · rw [window_withWindow_same, Window.load_store_of_ne hv (h.address_ne b' hi hi' hne')]
    · rfl
  · rw [window_withWindow_other v hb]

theorem Fits.exists_read_iff (h : r.Fits) :
    (∃ v, r.read b i = .ok v) ↔ i < registerCount ∧ (r.layout.base b).toNat % 4 = 0 := by
  constructor
  · rintro ⟨v, hv⟩
    have hi : i < registerCount := by
      by_contra hi
      simp [read, hi] at hv
    refine ⟨hi, ?_⟩
    by_contra hbase
    rw [(h.refuses hi hbase).1] at hv
    cases hv
  · rintro ⟨hi, hbase⟩
    exact (h.serves hi hbase).1

theorem Fits.exists_write_iff (h : r.Fits) :
    (∃ r', r.write b i w = .ok r') ↔ i < registerCount ∧ (r.layout.base b).toNat % 4 = 0 := by
  constructor
  · rintro ⟨r', hw⟩
    have hi := (write_eq_ok_iff.mp hw).1
    refine ⟨hi, ?_⟩
    by_contra hbase
    rw [(h.refuses hi hbase).2] at hw
    cases hw
  · rintro ⟨hi, hbase⟩
    exact (h.serves hi hbase).2 w

theorem write_cases (r : RegisterFile) (b : Bank) (i : ℕ) :
    (∃ f, ∀ w, r.write b i w = .error f) ∨ ∀ w, ∃ r', r.write b i w = .ok r' := by
  unfold write Window.store
  split_ifs
  · cases (r.window b).locate (r.layout.address b i) with
    | error e => exact Or.inl ⟨.access e, fun w => rfl⟩
    | ok k => exact Or.inr fun w => ⟨_, rfl⟩
  · exact Or.inl ⟨.registerIndex b i, fun w => rfl⟩

theorem read_of_le (hi : registerCount ≤ i) : r.read b i = .error (.registerIndex b i) := by
  rw [read, if_neg (Nat.not_lt.mpr hi)]

theorem write_of_le (hi : registerCount ≤ i) : r.write b i w = .error (.registerIndex b i) := by
  rw [write, if_neg (Nat.not_lt.mpr hi)]

theorem read_reset (h : ∃ v, r.read b i = .ok v) : r.reset.read b i = .ok 0 := by
  obtain ⟨v, hv⟩ := h
  have hwindow : r.reset.window b = (r.window b).clear := by cases b <;> rfl
  have haddress : r.reset.layout.address b i = r.layout.address b i := rfl
  unfold read at hv ⊢
  rw [hwindow, haddress]
  split_ifs at hv ⊢ with hi
  cases hl : (r.window b).load (r.layout.address b i) with
  | error e => simp [hl, Except.mapError] at hv
  | ok k => rw [Window.load_clear (Window.exists_load_iff.mp ⟨k, hl⟩), Except.mapError]

theorem read_allocate {l : Layout} (h : l.Acceptable) (ha : l.Aligned) (hi : i < registerCount) :
    (allocate l).read b i = .ok 0 :=
  read_reset (r := allocate l) ((fits_allocate h).exists_read_iff.mpr ⟨hi, ha b⟩)

end RegisterFile
end HartFloat
