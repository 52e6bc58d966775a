import HartFloat.Word
import Mathlib.Tactic

/-!
# Accesses and their journal

A storage keeps words under keys. It is accessed by loads, by stores and by clearing all words, and
it may refuse a load or a store. The journal of a run lists the accesses and the replies to them. In
a faithful storage a store changes the word under its own key and no other word, so the journal
tells what every load returns: the word last stored under the key since all words were cleared.
-/
namespace HartFloat

/-- How words are loaded from a state, stored to it and cleared. -/
structure Storage (κ ε σ : Type) where
  load : σ → κ → Except ε Word
  store : σ → κ → Word → Except ε σ
  clear : σ → σ

namespace Storage

inductive Access (κ : Type)
  | load (key : κ)
  | store (key : κ) (word : Word)
  | clear

inductive Reply (ε : Type)
  | loaded (word : Word)
  | done
  | refused (error : ε)

/-- The accesses made so far with the replies to them, the latest first. -/
abbrev Journal (κ ε : Type) := List (Access κ × Reply ε)

variable {κ ε σ : Type}

/-- An access to a state. One that is refused leaves the state as it is. -/
def perform (m : Storage κ ε σ) (s : σ) : Access κ → Reply ε × σ
  | .load k =>
    match m.load s k with
    | .ok w => (.loaded w, s)
    | .error e => (.refused e, s)
  | .store k w =>
    match m.store s k w with
    | .ok s' => (.done, s')
    | .error e => (.refused e, s)
  | .clear => (.done, m.clear s)

/-- Makes the accesses in order and keeps the journal of them. -/
def run (m : Storage κ ε σ) (s : σ) (accesses : List (Access κ)) : Journal κ ε × σ :=
  accesses.foldl (fun r a => ((a, (m.perform r.2 a).1) :: r.1, (m.perform r.2 a).2)) ([], s)

namespace Journal

/-- The word that a journal shows as last stored under a key; zero if there is none since all words
were cleared. -/
def lastStored [DecidableEq κ] (key : κ) : Journal κ ε → Word
  | [] => 0
  | (.clear, _) :: _ => 0
  | (.store k w, .done) :: earlier => if k = key then w else lastStored key earlier
  | _ :: earlier => lastStored key earlier

/-- Every word in the journal that was loaded is the one that had last been stored. -/
def Truthful [DecidableEq κ] (j : Journal κ ε) : Prop :=
  ∀ later earlier key word, j = later ++ (.load key, .loaded word) :: earlier →
    word = lastStored key earlier

end Journal

/-- How a storage behaves in the states that satisfy an invariant: the same keys are open to loads
and to stores at all times, and a store changes the word under its own key only. -/
structure Faithful (m : Storage κ ε σ) (inv : σ → Prop) (opened : κ → Prop) : Prop where
  inv_store : ∀ {s s' k w}, inv s → m.store s k w = .ok s' → inv s'
  inv_clear : ∀ {s}, inv s → inv (m.clear s)
  load_iff : ∀ {s k}, inv s → ((∃ w, m.load s k = .ok w) ↔ opened k)
  store_iff : ∀ {s k w}, inv s → ((∃ s', m.store s k w = .ok s') ↔ opened k)
  load_store_same : ∀ {s s' k w}, inv s → m.store s k w = .ok s' → m.load s' k = .ok w
  load_store_other : ∀ {s s' k w}, inv s → m.store s k w = .ok s' →
    ∀ k', k' ≠ k → m.load s' k' = m.load s k'
  load_clear : ∀ {s k}, inv s → opened k → m.load (m.clear s) k = .ok 0

variable {m : Storage κ ε σ} {s : σ} {k : κ} {w : Word}

theorem perform_refused {a : Access κ} {e : ε} (h : (m.perform s a).1 = .refused e) :
    (m.perform s a).2 = s := by
  cases a with
  | load k => cases hl : m.load s k <;> simp [perform, hl]
  | store k w =>
    cases hw : m.store s k w with
    | error e => simp [perform, hw]
    | ok s' => simp [perform, hw] at h
  | clear => cases h

theorem accesses_run (accesses : List (Access κ)) :
    (m.run s accesses).1.map Prod.fst = accesses.reverse := by
  induction accesses using List.reverseRecOn with
  | nil => rfl
  | append_singleton accesses a ih =>
    rw [List.reverse_append, run, List.foldl_append, List.foldl_cons, List.foldl_nil, List.map_cons]
    exact congrArg (a :: ·) ih

namespace Faithful

variable {inv : σ → Prop} {opened : κ → Prop}

theorem inv_perform (hm : m.Faithful inv opened) (hs : inv s) (a : Access κ) :
    inv (m.perform s a).2 := by
  cases a with
  | load k => cases hl : m.load s k <;> simpa [perform, hl] using hs
  | store k w =>
    cases hw : m.store s k w with
    | error e => simpa [perform, hw] using hs
    | ok s' => simpa [perform, hw] using hm.inv_store hs hw
  | clear => exact hm.inv_clear hs

variable [DecidableEq κ] {j : Journal κ ε}

/-- The journal shows what can be loaded from the state. -/
def Shows (m : Storage κ ε σ) (opened : κ → Prop) (s : σ) (j : Journal κ ε) : Prop :=
  ∀ k, opened k → m.load s k = .ok (j.lastStored k)

theorem shows_perform (hm : m.Faithful inv opened) (hs : inv s) (hj : Shows m opened s j)
    (a : Access κ) :
    Shows m opened (m.perform s a).2 ((a, (m.perform s a).1) :: j) := by
  intro k' hk'
  cases a with
  | load k => cases hl : m.load s k <;> simpa [perform, hl, Journal.lastStored] using hj k' hk'
  | store k w =>
    cases hw : m.store s k w with
    | error e => simpa [perform, hw, Journal.lastStored] using hj k' hk'
    | ok s' =>
      simp only [perform, hw, Journal.lastStored]
      split_ifs with hk
      · exact hk ▸ hm.load_store_same hs hw
      · rw [hm.load_store_other hs hw k' (Ne.symm hk), hj k' hk']
  | clear => exact hm.load_clear hs hk'

theorem truthful_perform (hm : m.Faithful inv opened) (hs : inv s) (hj : Shows m opened s j)
    (ht : j.Truthful) (a : Access κ) :
    Journal.Truthful ((a, (m.perform s a).1) :: j) := by
  rintro (_ | ⟨latest, later⟩) earlier k w hsplit
  · rw [List.nil_append, List.cons.injEq, Prod.mk.injEq] at hsplit
    obtain ⟨⟨rfl, hreply⟩, rfl⟩ := hsplit
    cases hl : m.load s k with
    | error e => simp [perform, hl] at hreply
    | ok v =>
      have hv : v = w := by simpa [perform, hl] using hreply
      rw [hj k ((hm.load_iff hs).mp ⟨v, hl⟩), hv] at hl
      exact (Except.ok.inj hl).symm
  · rw [List.cons_append, List.cons.injEq] at hsplit
    exact ht later earlier k w hsplit.2

/-- From a state in which all words are zero, a run keeps the invariant, and its journal is truthful
and shows what can be loaded in the end. -/
theorem run (hm : m.Faithful inv opened) (hs : inv s) (hzero : ∀ k, opened k → m.load s k = .ok 0)
    (accesses : List (Access κ)) :
    inv (m.run s accesses).2 ∧ Shows m opened (m.run s accesses).2 (m.run s accesses).1 ∧
      (m.run s accesses).1.Truthful := by
  -- The journal grows at its front, so a run is taken apart at its last access.
  induction accesses using List.reverseRecOn with
  | nil => exact ⟨hs, hzero, fun later earlier k w h => by simp [Storage.run] at h⟩
  | append_singleton accesses a ih =>
    obtain ⟨hinv, hshows, htruthful⟩ := ih
    rw [Storage.run, List.foldl_append]
    exact ⟨hm.inv_perform hinv a, hm.shows_perform hinv hshows a,
      hm.truthful_perform hinv hshows htruthful a⟩

/-- After a run a load succeeds exactly at the open keys, and returns what the journal shows. -/
theorem load_run_eq_ok_iff (hm : m.Faithful inv opened) (hs : inv s)
    (hzero : ∀ k, opened k → m.load s k = .ok 0) (accesses : List (Access κ)) :
    m.load (m.run s accesses).2 k = .ok w ↔
      opened k ∧ w = (m.run s accesses).1.lastStored k := by
  obtain ⟨hinv, hshows, -⟩ := hm.run hs hzero accesses
  constructor
  · intro hl
    have hk := (hm.load_iff hinv).mp ⟨w, hl⟩
    rw [hshows k hk] at hl
    exact ⟨hk, (Except.ok.inj hl).symm⟩
  · rintro ⟨hk, rfl⟩
    exact hshows k hk

end Faithful
end Storage
end HartFloat
