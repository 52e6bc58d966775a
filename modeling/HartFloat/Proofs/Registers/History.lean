import HartFloat.Proofs.Registers.Frame
import HartFloat.Proofs.Registers.Journal

/-!
# What the registers keep

The registers of an accepted layout are a storage whose keys are a bank and a number. Whatever
writes, reads, failed accesses and resets came before, a read that succeeds returns the word last
written to the same register since the last reset.
-/
namespace HartFloat.RegisterFile

/-- Reads and writes of the registers of both banks. -/
def storage : Storage (Bank × ℕ) Failure RegisterFile where
  load r k := r.read k.1 k.2
  store r k w := r.write k.1 k.2 w
  clear := reset

/-- There is such a register, and the base of its bank is a word address. -/
def Opens (l : Layout) (k : Bank × ℕ) : Prop :=
  k.2 < registerCount ∧ (l.base k.1).toNat % 4 = 0

variable {l : Layout}

theorem storage_faithful (l : Layout) :
    storage.Faithful (fun r => r.Fits ∧ r.layout = l) (Opens l) where
  inv_store hr hw := ⟨(hr.1.write hw).1, (hr.1.write hw).2.trans hr.2⟩
  inv_clear hr := ⟨hr.1.reset, hr.2⟩
  load_iff hr := hr.2 ▸ hr.1.exists_read_iff
  store_iff hr := hr.2 ▸ hr.1.exists_write_iff
  load_store_same _ hw := read_write_same hw
  load_store_other hr hw _ hne := hr.1.read_write_other hw hne
  load_clear hr hk := read_reset (hr.1.exists_read_iff.mpr (hr.2 ▸ hk))

theorem read_allocate_of_opens (h : l.Acceptable) {k : Bank × ℕ} (hk : Opens l k) :
    storage.load (allocate l) k = .ok 0 :=
  read_reset (r := allocate l) ((fits_allocate h).exists_read_iff.mpr hk)

/-- In an accepted layout all reads in a history, and all that come after it, return the word last
written to the same register since the last reset. Which registers can be read and written does not
depend on the history. A write changes no other register of either bank, and an access that fails
changes nothing. -/
theorem history_determines_registers (h : l.validate = .ok ()) :
    create l = .ok (allocate l) ∧ ∀ accesses : List (Storage.Access (Bank × ℕ)),
      let journal := (storage.run (allocate l) accesses).1
      let r := (storage.run (allocate l) accesses).2
      (journal.map Prod.fst = accesses.reverse ∧ journal.Truthful) ∧
        (∀ b i w, r.read b i = .ok w ↔
          (i < registerCount ∧ (l.base b).toNat % 4 = 0) ∧ w = journal.lastStored (b, i)) ∧
        (∀ b i w, (∃ r', r.write b i w = .ok r') ↔
          i < registerCount ∧ (l.base b).toNat % 4 = 0) ∧
        (∀ b i w r', r.write b i w = .ok r' → ∀ b' i',
          r'.read b' i' = if (b', i') = (b, i) then .ok w else r.read b' i') ∧
        ∀ a e, (storage.perform r a).1 = .refused e → (storage.perform r a).2 = r := by
  have ha := Layout.validate_eq_ok_iff.mp h
  have hfaithful := storage_faithful l
  have hfits : (allocate l).Fits ∧ (allocate l).layout = l := ⟨fits_allocate ha, rfl⟩
  refine ⟨create_of_acceptable ha, ?_⟩
  intro accesses journal r
  obtain ⟨hr, -, htruthful⟩ := hfaithful.run hfits (fun _ => read_allocate_of_opens ha) accesses
  refine ⟨⟨Storage.accesses_run accesses, htruthful⟩, ?reads, ?writes, ?frame,
    fun a e => Storage.perform_refused⟩
  case reads =>
    intro b i w
    exact hfaithful.load_run_eq_ok_iff (k := (b, i)) hfits (fun _ => read_allocate_of_opens ha)
      accesses
  case writes =>
    intro b i w
    exact hfaithful.store_iff (k := (b, i)) hr
  case frame =>
    intro b i w r' hw b' i'
    split_ifs with heq
    · obtain ⟨rfl, rfl⟩ := Prod.mk.inj heq
      exact read_write_same hw
    · exact hr.1.read_write_other hw heq

/-- A bank at an unaligned base is never accessible; the other one keeps what is written to it. -/
theorem history_determines_registers_mixed :
    let l : Layout := { integerBase := 0xa0000002 }
    let r := (storage.run (allocate l) [.store (.float, 4) 1, .store (.integer, 4) 2,
      .load (.float, 32), .store (.float, 5) 3]).2
    l.validate = .ok () ∧ r.read .float 4 = .ok 1 ∧ r.read .float 6 = .ok 0 ∧
      ¬∃ w, r.read .integer 4 = .ok w := by
  intro l r
  have hv : l.validate = .ok () := by decide
  obtain ⟨-, hread, -⟩ := (history_determines_registers hv).2 [.store (.float, 4) 1,
    .store (.integer, 4) 2, .load (.float, 32), .store (.float, 5) 3]
  refine ⟨hv, (hread _ _ _).mpr (by decide), (hread _ _ _).mpr (by decide), ?_⟩
  rintro ⟨w, hw⟩
  exact absurd ((hread _ _ _).mp hw).1 (by decide)

end HartFloat.RegisterFile
