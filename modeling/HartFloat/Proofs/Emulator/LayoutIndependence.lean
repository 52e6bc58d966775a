import HartFloat.Backend.Soft
import HartFloat.Proofs.Emulator.Calls

/-!
# The layout cannot be observed

Registers in two layouts with word-aligned bases that hold the same words are read alike, and a
write or a reset leaves them with the same words again. Nothing else of an emulator looks at
addresses, so no sequence of calls tells the two layouts apart.
-/
namespace HartFloat

variable {σ : Type} {l l' : Layout}

namespace RegisterFile

/-- Registers in the two layouts that hold the same words. -/
structure SameWords (l l' : Layout) (r r' : RegisterFile) : Prop where
  fits : r.Fits
  fits' : r'.Fits
  layout_eq : r.layout = l
  layout_eq' : r'.layout = l'
  read_eq : ∀ b i, i < registerCount → r.read b i = r'.read b i

variable {r r' : RegisterFile} {b : Bank} {i : ℕ}

theorem SameWords.read_congr (h : SameWords l l' r r') (b : Bank) (i : ℕ) :
    r.read b i = r'.read b i := by
  by_cases hi : i < registerCount
  · exact h.read_eq b i hi
  · rw [read_of_le (Nat.le_of_not_lt hi), read_of_le (Nat.le_of_not_lt hi)]

section Aligned

variable (hl : l.Aligned) (hl' : l'.Aligned)
include hl hl'

/-- A register of both layouts can be written in both, and then holds the same word in both. -/
theorem SameWords.write (h : SameWords l l' r r') (b : Bank) (w : Word) (hi : i < registerCount) :
    ∃ r₁ r₁', r.write b i w = .ok r₁ ∧ r'.write b i w = .ok r₁' ∧ SameWords l l' r₁ r₁' := by
  obtain ⟨r₁, hw⟩ := h.fits.exists_write_iff.mpr ⟨hi, h.layout_eq ▸ hl b⟩
  obtain ⟨r₁', hw'⟩ := h.fits'.exists_write_iff.mpr ⟨hi, h.layout_eq' ▸ hl' b⟩
  obtain ⟨hfits, hlayout⟩ := h.fits.write hw
  obtain ⟨hfits', hlayout'⟩ := h.fits'.write hw'
  refine ⟨r₁, r₁', hw, hw', hfits, hfits', hlayout.trans h.layout_eq,
    hlayout'.trans h.layout_eq', fun b' i' hi' => ?_⟩
  by_cases hsame : (b', i') = (b, i)
  · cases hsame
    rw [read_write_same hw, read_write_same hw']
  · rw [h.fits.read_write_other hw hsame, h.fits'.read_write_other hw' hsame,
      h.read_eq b' i' hi']

theorem SameWords.reset (h : SameWords l l' r r') : SameWords l l' r.reset r'.reset := by
  refine ⟨h.fits.reset, h.fits'.reset, h.layout_eq, h.layout_eq', fun b i hi => ?_⟩
  rw [read_reset (h.fits.exists_read_iff.mpr ⟨hi, h.layout_eq ▸ hl b⟩),
    read_reset (h.fits'.exists_read_iff.mpr ⟨hi, h.layout_eq' ▸ hl' b⟩)]

end Aligned
end RegisterFile

namespace Core

structure SameContents (l l' : Layout) (core core' : Core σ) : Prop where
  registers : RegisterFile.SameWords l l' core.registers core'.registers
  state_eq : core.state = core'.state

theorem congruence_sameContents (hl : l.Aligned) (hl' : l'.Aligned) (P : Primitives σ) :
    Congruence P (SameContents l l') where
  read b i core core' h := by
    rw [read_apply, read_apply, h.registers.read_congr b i]
    exact ⟨rfl, h⟩
  write b i w core core' h := by
    rw [write_apply, write_apply]
    by_cases hi : i < registerCount
    · obtain ⟨r₁, r₁', hw, hw', hsame⟩ := h.registers.write hl hl' b w hi
      rw [hw, hw']
      exact ⟨rfl, hsame, h.state_eq⟩
    · rw [RegisterFile.write_of_le (Nat.le_of_not_lt hi),
        RegisterFile.write_of_le (Nat.le_of_not_lt hi)]
      exact ⟨rfl, h⟩
  calculate op a b c core core' h := by
    rw [calculate_apply, calculate_apply, h.state_eq]
    exact ⟨rfl, h.registers, rfl⟩
  reset core core' h := ⟨rfl, h.registers.reset hl hl', h.state_eq⟩

end Core

namespace Emulator

/-- Two accepted layouts with word-aligned bases are indistinguishable. Emulators whose registers
hold the same words in them, over the same backend in the same state, answer every sequence of
calls alike and end with the same words in all registers, the same exceptions and the same
statistics; each keeps its own layout. -/
theorem callAll_layout_independent (hl : l.Aligned) (hl' : l'.Aligned) (P : Primitives σ)
    {e e' : Emulator σ} (he : RegisterFile.Reachable l e.core.registers)
    (he' : RegisterFile.Reachable l' e'.core.registers)
    (hwords : ∀ b i, i < registerCount → e.core.registers.read b i = e'.core.registers.read b i)
    (hstate : e.core.state = e'.core.state) (hstatistics : e.statistics = e'.statistics)
    (calls : List Call) :
    let done := callAll P calls e
    let done' := callAll P calls e'
    done.1 = done'.1 ∧
      (∀ b i, i < registerCount → ∃ w, done.2.core.registers.read b i = .ok w ∧
        done'.2.core.registers.read b i = .ok w) ∧
      P.flags done.2.core.state = P.flags done'.2.core.state ∧
      done.2.statistics = done'.2.statistics ∧
      done.2.core.registers.layout = l ∧ done'.2.core.registers.layout = l' := by
  intro done done'
  obtain ⟨hfits, hlayout⟩ := he.fits
  obtain ⟨hfits', hlayout'⟩ := he'.fits
  have hrelated : Related (Core.SameContents l l') e e' :=
    ⟨⟨⟨hfits, hfits', hlayout, hlayout', hwords⟩, hstate⟩, hstatistics⟩
  obtain ⟨hanswers, hdone⟩ :=
    callAll_congr (Core.congruence_sameContents hl hl' P) calls hrelated
  have hregisters := hdone.core.registers
  refine ⟨hanswers, fun b i hi => ?_, congrArg P.flags hdone.core.state_eq,
    hdone.statistics_eq, hregisters.layout_eq, hregisters.layout_eq'⟩
  obtain ⟨w, hw⟩ := hregisters.fits.exists_read_iff.mpr ⟨hi, hregisters.layout_eq ▸ hl b⟩
  exact ⟨w, hw, (hregisters.read_eq b i hi).symm.trans hw⟩

/-- The default layout and one with other bases and strides. The sequence has a call that fails and
reads the result of an instruction. -/
theorem callAll_layout_independent_fresh :
    let l' : Layout :=
      { floatBase := 0x1000, floatStride := 8, integerBase := 0x2000, integerStride := 4096 }
    let e : Emulator Flags := ⟨⟨.allocate {}, ∅⟩, {}⟩
    let e' : Emulator Flags := ⟨⟨.allocate l', ∅⟩, {}⟩
    let calls : List Call := [.write .integer 2 7, .run [0xd00100d3, 0x001080d3, 0x02a00093],
      .execute .fdiv { rd := 32 }, .read .float 1]
    ({} : Layout).Aligned ∧ l'.Aligned ∧ RegisterFile.Reachable {} e.core.registers ∧
      RegisterFile.Reachable l' e'.core.registers ∧
      (∀ b i, i < registerCount →
        e.core.registers.read b i = e'.core.registers.read b i) ∧
      e.core.state = e'.core.state ∧ e.statistics = e'.statistics ∧
      (callAll Backend.Soft.primitives calls e).1 =
        (callAll Backend.Soft.primitives calls e').1 ∧
      (callAll Backend.Soft.primitives calls e).2.statistics =
        (callAll Backend.Soft.primitives calls e').2.statistics := by
  intro l' e e' calls
  have hl' : l'.Aligned := by
    intro b
    cases b <;> decide
  have hvalid : ({} : Layout).validate = .ok () := by decide
  have hvalid' : l'.validate = .ok () := by decide
  have he : RegisterFile.Reachable {} e.core.registers :=
    .create (RegisterFile.create_of_acceptable (Layout.validate_eq_ok_iff.mp hvalid))
  have he' : RegisterFile.Reachable l' e'.core.registers :=
    .create (RegisterFile.create_of_acceptable (Layout.validate_eq_ok_iff.mp hvalid'))
  have hwords (b : Bank) (i : ℕ) (hi : i < registerCount) :
      e.core.registers.read b i = e'.core.registers.read b i :=
    (RegisterFile.read_allocate (Layout.validate_eq_ok_iff.mp hvalid) Layout.aligned_default
      hi).trans (RegisterFile.read_allocate (Layout.validate_eq_ok_iff.mp hvalid') hl' hi).symm
  obtain ⟨hanswers, -, -, hstatistics, -⟩ := callAll_layout_independent Layout.aligned_default hl'
    Backend.Soft.primitives he he' hwords rfl rfl calls
  exact ⟨Layout.aligned_default, hl', he, he', hwords, rfl, rfl, hanswers, hstatistics⟩

end Emulator
end HartFloat
