import HartFloat.Proofs.Registers.Bytes
import HartFloat.Proofs.Registers.Journal

/-!
# What a memory window keeps

A window serves the word addresses whose four bytes all belong to it, and it serves them at all
times: neither stores nor clearing change which accesses succeed. A store replaces the four bytes
from its address on and no other byte, so a load returns the word last stored at its address.
-/
namespace HartFloat

namespace Window

variable {w w' : Window} {address value : Word}

/-- The window is the stretch of `size` bytes from `base` on. -/
structure Spans (w : Window) (base : Word) (size : ℕ) : Prop where
  base_eq : w.base = base
  size_eq : w.size = size

theorem spans_of_store {base : Word} {size : ℕ} (hw : w.Spans base size)
    (h : w.store address value = .ok w') : w'.Spans base size := by
  obtain ⟨hbase, hsize⟩ := base_and_size_of_store h
  exact ⟨hbase.trans hw.base_eq, hsize.trans hw.size_eq⟩

theorem Spans.serves_iff {base : Word} {size : ℕ} (hw : w.Spans base size) :
    w.Serves address ↔ (empty size base).Serves address :=
  serves_congr hw.base_eq hw.size_eq

/-- Loads and stores at the addresses of a window. -/
def storage : Storage Word AccessError Window where
  load := load
  store := store
  clear := clear

theorem spans_empty (size : ℕ) (base : Word) : (empty size base).Spans base size := ⟨rfl, rfl⟩

theorem storage_faithful (size : ℕ) (base : Word) :
    storage.Faithful (fun w => w.Spans base size) (empty size base).Serves where
  inv_store hw h := spans_of_store hw h
  inv_clear hw := ⟨hw.base_eq, hw.size_eq⟩
  load_iff hw := exists_load_iff.trans hw.serves_iff
  store_iff hw := exists_store_iff.trans hw.serves_iff
  load_store_same _ h := load_store_same h
  load_store_other _ h _ hne := load_store_of_ne h hne
  load_clear hw h := load_clear (hw.serves_iff.mpr h)

/-- Whatever has been stored and cleared before, a window contains the same addresses and serves
loads and stores exactly at the multiples of four whose first and last byte it contains. A load
returns the word last stored at its address, which is the one in the four bytes there, the least
significant byte first. A store that succeeds replaces those four bytes and no other, and one that
fails changes nothing. An address that is no multiple of four is reported as such, wherever it
lies. -/
theorem history_determines_words (size : ℕ) (base : Word)
    (accesses : List (Storage.Access Word)) :
    let journal := (storage.run (empty size base) accesses).1
    let w := (storage.run (empty size base) accesses).2
    (journal.map Prod.fst = accesses.reverse ∧ journal.Truthful) ∧
      (∀ a, w.contains a = (empty size base).contains a) ∧
      (∀ a v, w.load a = .ok v ↔
        (a.toNat % 4 = 0 ∧ w.contains a = true ∧ w.contains (a + 3) = true) ∧
          v = journal.lastStored a) ∧
      (∀ a v, (∃ w', w.store a v = .ok w') ↔
        a.toNat % 4 = 0 ∧ w.contains a = true ∧ w.contains (a + 3) = true) ∧
      (∀ a v, w.load a = .ok v → ∀ j < 4,
        w.byteAt? (a + BitVec.ofNat 32 j) = some (v.byte j)) ∧
      (∀ a v w', w.store a v = .ok w' → ∀ x, w'.byteAt? x =
        if a.toNat ≤ x.toNat ∧ x.toNat < a.toNat + 4 then some (v.byte (x.toNat - a.toNat))
        else w.byteAt? x) ∧
      (∀ a v e, w.store a v = .error e → (storage.perform w (.store a v)).2 = w) ∧
      ∀ a, (w.load a = .error (.unaligned a) ↔ a.toNat % 4 ≠ 0) ∧
        ∀ v, w.store a v = .error (.unaligned a) ↔ a.toNat % 4 ≠ 0 := by
  intro journal w
  have hfaithful := storage_faithful size base
  have hspans := spans_empty size base
  obtain ⟨hw, -, htruthful⟩ := hfaithful.run hspans (fun _ => load_empty) accesses
  refine ⟨⟨Storage.accesses_run accesses, htruthful⟩, ?contains, ?load, fun a v => exists_store_iff,
    fun a v h => (load_eq_ok_iff.mp h).2, fun a v w' h x => byteAt?_store h x, ?failed,
    fun a => ⟨load_eq_unaligned_iff, fun v => store_eq_unaligned_iff⟩⟩
  case contains =>
    intro a
    rw [contains, hw.base_eq, hw.size_eq]
    rfl
  case load =>
    intro a v
    have hload := hfaithful.load_run_eq_ok_iff hspans (fun _ => load_empty) accesses
      (k := a) (w := v)
    rw [← hw.serves_iff] at hload
    exact hload
  case failed =>
    intro a v e h
    have hrefused : (storage.perform w (.store a v)).1 = .refused e := by
      simp only [Storage.perform, storage, h]
    exact Storage.perform_refused hrefused

/-- A window of seven bytes that ends with the address space and starts at an odd address has one
word. -/
theorem history_determines_words_at_the_end :
    let r := storage.run (empty 7 0xfffffff9)
      [.store 0xfffffffc 5, .store 0xfffffff8 6, .store 0xfffffffd 7]
    r.2.load 0xfffffffc = .ok 5 ∧ (¬∃ w', r.2.store 0xfffffff8 6 = .ok w') ∧
      r.2.store 0xfffffffd 7 = .error (.unaligned 0xfffffffd) := by
  intro r
  obtain ⟨-, -, hload, hstore, -, -, -, hunaligned⟩ := history_determines_words 7 0xfffffff9
    [.store 0xfffffffc 5, .store 0xfffffff8 6, .store 0xfffffffd 7]
  exact ⟨(hload _ _).mpr (by decide), mt (hstore _ _).mp (by decide),
    ((hunaligned _).2 _).mpr (by decide)⟩

end Window
end HartFloat
