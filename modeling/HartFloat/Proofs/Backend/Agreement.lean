import HartFloat.Proofs.Backend.NativeArithmetic
import HartFloat.Proofs.Backend.NativeComparison
import HartFloat.Proofs.Backend.NativeConversion
import HartFloat.Proofs.Core.Execution

/-!
# The backends agree

The exact backend and the host backend answer every request with the same ordering or integer and
with the same word, or with two NaNs, whatever the operands are, whatever the exact backend has
collected and whichever NaNs the machine gives. Operands that are different NaNs make no difference
either. What is computed by such requests is then alike too: approximate square roots, the results
of all operations, and what an operation does to the registers of a core.
-/
namespace HartFloat

variable {σ τ α β γ δ : Type}

/-- The words are the same, or both are NaNs. -/
def Word.Alike (a b : Word) : Prop := a = b ∨ a.isNaN = true ∧ b.isNaN = true

theorem Word.Alike.refl (a : Word) : a.Alike a := Or.inl rfl

theorem Word.Alike.negate {a b : Word} (h : a.Alike b) : a.negate.Alike b.negate := by
  rcases h with rfl | ⟨ha, hb⟩
  · exact .refl _
  · exact Or.inr ⟨by rwa [isNaN_negate], by rwa [isNaN_negate]⟩

/-- The results of two computations are in the relation, each from any state of its own backend. -/
def Correspond (R : α → β → Prop) (x : StateM σ α) (y : StateM τ β) : Prop :=
  ∀ s t, R (x s).1 (y t).1

namespace Correspond

variable {R : α → β → Prop} {S : γ → δ → Prop}

theorem pure {a : α} {b : β} (h : R a b) :
    Correspond R (Pure.pure a : StateM σ α) (Pure.pure b : StateM τ β) := fun _ _ => h

theorem bind {x : StateM σ α} {y : StateM τ β} {f : α → StateM σ γ} {g : β → StateM τ δ}
    (h : Correspond R x y) (hfg : ∀ a b, R a b → Correspond S (f a) (g b)) :
    Correspond S (x >>= f) (y >>= g) := fun s t => hfg _ _ (h s t) _ _

theorem map {x : StateM σ α} {y : StateM τ β} (h : Correspond R x y) {f : α → γ} {g : β → δ}
    (hfg : ∀ a b, R a b → S (f a) (g b)) : Correspond S (f <$> x) (g <$> y) :=
  fun s t => hfg _ _ (h s t)

theorem mono {R' : α → β → Prop} {x : StateM σ α} {y : StateM τ β} (h : Correspond R x y)
    (hR : ∀ a b, R a b → R' a b) : Correspond R' x y := fun s t => hR _ _ (h s t)

end Correspond

namespace Operation

/-- The operations whose result the backend rounds to a float, which may not be a number. -/
def arithmetic : List Operation :=
  [fadd, fsub, fmul, fdiv, fsqrt, fmadd, fmsub, fnmadd, fnmsub]

/-- The words are the same, or two NaNs that the operation was given by its backend. -/
def Alike (op : Operation) (a b : Word) : Prop :=
  a = b ∨ op ∈ arithmetic ∧ a.isNaN = true ∧ b.isNaN = true

theorem alike_of_arithmetic {op : Operation} (hop : op ∈ arithmetic) {a b : Word}
    (h : a.Alike b) : op.Alike a b := h.imp id fun hnan => ⟨hop, hnan⟩

end Operation

/-- An operation ends alike on two cores with the same registers: it fails for the same reason and
changes no register, or it writes the same word, or two NaNs, to the same register. -/
inductive Core.EndAlike (op : Operation) (o : Operands) (registers : RegisterFile) :
    Except Failure Unit × RegisterFile → Except Failure Unit × RegisterFile → Prop
  | failed (f : Failure) : EndAlike op o registers (.error f, registers) (.error f, registers)
  | written {w w' : Word} {r r' : RegisterFile} : op.Alike w w' →
    registers.write (op.destination o).1 (op.destination o).2 w = .ok r →
    registers.write (op.destination o).1 (op.destination o).2 w' = .ok r' →
    EndAlike op o registers (.ok (), r) (.ok (), r')

namespace Primitives

variable {P : Primitives σ} {Q : Primitives τ}

/-- Two backends answer every request alike, also if they are given different NaNs. -/
structure Agree (P : Primitives σ) (Q : Primitives τ) : Prop where
  add : ∀ {a a' b b'}, a.Alike a' → b.Alike b' → Correspond Word.Alike (P.add a b) (Q.add a' b')
  sub : ∀ {a a' b b'}, a.Alike a' → b.Alike b' → Correspond Word.Alike (P.sub a b) (Q.sub a' b')
  mul : ∀ {a a' b b'}, a.Alike a' → b.Alike b' → Correspond Word.Alike (P.mul a b) (Q.mul a' b')
  div : ∀ {a a' b b'}, a.Alike a' → b.Alike b' → Correspond Word.Alike (P.div a b) (Q.div a' b')
  compareQuiet : ∀ {a a' b b'}, a.Alike a' → b.Alike b' →
    Correspond Eq (P.compareQuiet a b) (Q.compareQuiet a' b')
  compareSignaling : ∀ {a a' b b'}, a.Alike a' → b.Alike b' →
    Correspond Eq (P.compareSignaling a b) (Q.compareSignaling a' b')
  toSigned : ∀ {a a'}, a.Alike a' → Correspond Eq (P.toSigned a) (Q.toSigned a')
  toUnsigned : ∀ {a a'}, a.Alike a' → Correspond Eq (P.toUnsigned a) (Q.toUnsigned a')
  ofSigned : ∀ a, Correspond Eq (P.ofSigned a) (Q.ofSigned a)
  ofUnsigned : ∀ a, Correspond Eq (P.ofUnsigned a) (Q.ofUnsigned a)
  isEqual : ∀ {a a' b b'}, a.Alike a' → b.Alike b' →
    Correspond Eq (P.isEqual a b) (Q.isEqual a' b')
  isLess : ∀ {a a' b b'}, a.Alike a' → b.Alike b' → Correspond Eq (P.isLess a b) (Q.isLess a' b')
  isLessOrEqual : ∀ {a a' b b'}, a.Alike a' → b.Alike b' →
    Correspond Eq (P.isLessOrEqual a b) (Q.isLessOrEqual a' b')

theorem Agree.iterateRoot (h : P.Agree Q) (x : Word) (n : ℕ) {guess guess' : Word}
    (hguess : guess.Alike guess') :
    Correspond Word.Alike (P.iterateRoot x n guess) (Q.iterateRoot x n guess') := by
  induction n generalizing guess guess' with
  | zero => exact .pure hguess
  | succ n ih =>
    refine Correspond.bind ?_ fun _ _ => ih
    refine (h.div (.refl x) hguess).bind fun quotient quotient' hquotient => ?_
    exact (h.add hguess hquotient).bind fun sum sum' hsum => h.mul hsum (.refl half)

theorem Agree.sqrtApprox (h : P.Agree Q) (x : Word) :
    Correspond Word.Alike (P.sqrtApprox x) (Q.sqrtApprox x) := by
  unfold Primitives.sqrtApprox
  split_ifs
  · exact .pure (.refl x)
  · exact h.div (.refl 0) (.refl 0)
  · exact h.iterateRoot x rootSteps (.refl x)

theorem Agree.pick (h : P.Agree Q) (firstWhen : Ordering) (a b : Word) :
    Correspond Eq (Operation.pick P firstWhen a b) (Operation.pick Q firstWhen a b) := by
  unfold Operation.pick
  split
  · exact .pure rfl
  · exact .pure rfl
  · exact .pure rfl
  · refine (h.compareSignaling (.refl a) (.refl b)).bind ?_
    rintro r _ rfl
    exact .pure rfl

theorem Agree.compute (h : P.Agree Q) (op : Operation) (a b c : Word) :
    Correspond op.Alike (op.compute P a b c) (op.compute Q a b c) := by
  have harithmetic {x : StateM σ Word} {y : StateM τ Word} (hop : op ∈ Operation.arithmetic)
      (hxy : Correspond Word.Alike x y) : Correspond op.Alike x y :=
    hxy.mono fun _ _ => Operation.alike_of_arithmetic hop
  have hsame {x : StateM σ Word} {y : StateM τ Word} (hxy : Correspond Eq x y) :
      Correspond op.Alike x y := hxy.mono fun _ _ => Or.inl
  have hmul := h.mul (.refl a) (.refl b)
  cases op with
  | fadd => exact harithmetic (by decide) (h.add (.refl a) (.refl b))
  | fsub => exact harithmetic (by decide) (h.sub (.refl a) (.refl b))
  | fmul => exact harithmetic (by decide) hmul
  | fdiv => exact harithmetic (by decide) (h.div (.refl a) (.refl b))
  | fsqrt => exact harithmetic (by decide) (h.sqrtApprox a)
  | fmin => exact hsame (h.pick .lt a b)
  | fmax => exact hsame (h.pick .gt a b)
  | fmadd => exact harithmetic (by decide) (hmul.bind fun _ _ hp => h.add hp (.refl c))
  | fmsub => exact harithmetic (by decide) (hmul.bind fun _ _ hp => h.sub hp (.refl c))
  | fnmadd => exact harithmetic (by decide) (hmul.bind fun _ _ hp => h.sub hp.negate (.refl c))
  | fnmsub => exact harithmetic (by decide) (hmul.bind fun _ _ hp => h.add hp.negate (.refl c))
  | fsgnj | fsgnjn | fsgnjx | fmvXW | fmvWX | fclass => exact hsame (.pure rfl)
  | feq => exact hsame ((h.isEqual (.refl a) (.refl b)).map fun _ _ => congrArg Operation.truth)
  | flt => exact hsame ((h.isLess (.refl a) (.refl b)).map fun _ _ => congrArg Operation.truth)
  | fle =>
    exact hsame ((h.isLessOrEqual (.refl a) (.refl b)).map fun _ _ => congrArg Operation.truth)
  | fcvtWS => exact hsame (h.toSigned (.refl a))
  | fcvtWuS => exact hsame (h.toUnsigned (.refl a))
  | fcvtSW => exact hsame (h.ofSigned a)
  | fcvtSWu => exact hsame (h.ofUnsigned a)

theorem Agree.execute (h : P.Agree Q) (op : Operation) (o : Operands) (registers : RegisterFile)
    (s : σ) (t : τ) :
    Core.EndAlike op o registers
      ((Core.execute P op o ⟨registers, s⟩).1, (Core.execute P op o ⟨registers, s⟩).2.registers)
      ((Core.execute Q op o ⟨registers, t⟩).1,
        (Core.execute Q op o ⟨registers, t⟩).2.registers) := by
  rw [Core.execute_apply, Core.execute_apply]
  cases registers.readAll (op.sources o) with
  | error f => exact .failed f
  | ok words =>
    have hresult : op.Alike (op.result P words s).1 (op.result Q words t).1 :=
      h.compute op _ _ _ s t
    simp only [Core.write_apply]
    rcases registers.write_cases (op.destination o).1 (op.destination o).2 with
      ⟨f, hfail⟩ | hwrite
    · rw [hfail, hfail]
      exact .failed f
    · obtain ⟨r, hr⟩ := hwrite (op.result P words s).1
      obtain ⟨r', hr'⟩ := hwrite (op.result Q words t).1
      rw [hr, hr']
      exact .written hresult hr hr'

end Primitives

namespace Backend

open Float.Model (UnpackedFloat)
open Native Soft

variable {a a' b b' : Word}

theorem unpack_eq_of_alike (h : a.Alike a') : unpack a = unpack a' := by
  rcases h with rfl | ⟨ha, ha'⟩
  · rfl
  · rw [unpack_of_isNaN ha, unpack_of_isNaN ha']

/-- The machine gives the native result, or a NaN of its own if that is no number. -/
theorem alike_arithmetic (nan : Host.NaNChoice σ) (op : Host.Arithmetic) (a b : Word) (s : σ) :
    (Host.toWord (op.native (Host.ofWord a) (Host.ofWord b))).Alike
      (Host.arithmetic nan op a b s).1 := by
  unfold Host.arithmetic
  split_ifs with hnan
  · exact Or.inr ⟨hnan, (nan op a b s).1.2⟩
  · exact .refl _

theorem binary_eq {op : Context → Single → Single → Outcome Single}
    {native : UnpackedFloat → UnpackedFloat → UnpackedFloat} {exact : Number → Number → ExactResult}
    (hop : op ∈ [Pattern.add, Pattern.sub, Pattern.mul, Pattern.div, Pattern.remainder])
    (hexact : ∀ {x y : Number}, (ofWord a).number? = some x → (ofWord b).number? = some y →
      op nearest (ofWord a) (ofWord b) = (exact x y).outcome .binary32 nearest)
    (hnative : ∀ {u v x y}, Stands u x → Stands v y → pack (native u v) = (exact x y).word)
    (hleft : ∀ v, native .notANumber v = .notANumber)
    (hright : ∀ u, native u .notANumber = .notANumber) (s : Flags) :
    (binary op a b s).1 = pack (native (unpack a) (unpack b)) := by
  change toWord (settle (Pattern.canonicalNaN .binary32)
    (op nearest (ofWord a) (ofWord b))).1 = _
  by_cases hnan : a.isNaN = true ∨ b.isNaN = true
  · have hnative : native (unpack a) (unpack b) = .notANumber := by
      rcases hnan with h | h
      · rw [unpack_of_isNaN h, hleft]
      · rw [unpack_of_isNaN h, hright]
    rw [hnative, Pattern.eq_binaryNaN hop (by rwa [isNaN_ofWord, isNaN_ofWord])]
    exact pack_notANumber.symm
  · rw [not_or, Bool.not_eq_true, Bool.not_eq_true] at hnan
    obtain ⟨x, hx⟩ := exists_number? hnan.1
    obtain ⟨y, hy⟩ := exists_number? hnan.2
    rw [hexact hx hy, hnative (stands_unpack hx) (stands_unpack hy)]
    rfl

/-- What the exact backend computes as the native arithmetic does is alike on the machine. -/
theorem correspond_arithmetic (nan : Host.NaNChoice σ) {op : Host.Arithmetic}
    {native : UnpackedFloat → UnpackedFloat → UnpackedFloat} {x : StateM Flags Word}
    (hx : ∀ s, (x s).1 = pack (native (unpack a) (unpack b)))
    (hnative : ∀ a b, Host.toWord (op.native (Host.ofWord a) (Host.ofWord b)) =
      pack (native (unpack a) (unpack b)))
    (ha : a.Alike a') (hb : b.Alike b') :
    Correspond Word.Alike x (Host.arithmetic nan op a' b') := by
  intro s t
  rw [hx, unpack_eq_of_alike ha, unpack_eq_of_alike hb, ← hnative]
  exact alike_arithmetic nan op a' b' t

theorem compare_of_isNaN (quiet : Bool) (h : a.isNaN = true ∨ b.isNaN = true) :
    (settle none ((ofWord a).compare quiet (ofWord b))).1 = none := by
  rw [Pattern.compare, if_pos]
  · rfl
  · rwa [Bool.or_eq_true, isNaN_ofWord, isNaN_ofWord]

theorem compare_of_number? (quiet : Bool) {x y : Number} (hx : (ofWord a).number? = some x)
    (hy : (ofWord b).number? = some y) :
    (settle none ((ofWord a).compare quiet (ofWord b))).1 = some (x.compare y) := by
  rw [Pattern.compare, isNaN_ofWord, isNaN_ofWord, isNaN_of_number? hx, isNaN_of_number? hy,
    Pattern.order_eq Format.regular_binary32 rfl (by decide) hx hy]
  rfl

theorem compare_eq (quiet : Bool) (a b : Word) :
    (settle none ((ofWord a).compare quiet (ofWord b))).1 = Host.order a b := by
  by_cases hnan : a.isNaN = true ∨ b.isNaN = true
  · rw [Host.order_eq_none hnan, compare_of_isNaN quiet hnan]
  · rw [not_or, Bool.not_eq_true, Bool.not_eq_true] at hnan
    obtain ⟨x, hx⟩ := exists_number? hnan.1
    obtain ⟨y, hy⟩ := exists_number? hnan.2
    rw [Host.order_eq_some hx hy, compare_of_number? quiet hx hy]

theorem order_eq_of_alike (ha : a.Alike a') (hb : b.Alike b') :
    Host.order a b = Host.order a' b' := by
  unfold Host.order
  simp only [Host.lt_iff, Host.beq_iff, unpack_eq_of_alike ha, unpack_eq_of_alike hb]

theorem correspond_compare (nan : Host.NaNChoice σ) (ha : a.Alike a') (hb : b.Alike b') :
    Correspond Eq (Soft.primitives.compareQuiet a b) ((Host.primitives nan).compareQuiet a' b') ∧
      Correspond Eq (Soft.primitives.compareSignaling a b)
        ((Host.primitives nan).compareSignaling a' b') :=
  ⟨fun _ _ => (compare_eq true a b).trans (order_eq_of_alike ha hb),
    fun _ _ => (compare_eq false a b).trans (order_eq_of_alike ha hb)⟩

theorem toSigned_agrees (h : a.Alike a') (s : Flags) :
    (Soft.primitives.toSigned a s).1 = Host.toSigned a' := by
  rcases h with rfl | ⟨ha, ha'⟩
  · cases hnan : a.isNaN with
    | true =>
      rw [toSigned_of_isNaN hnan, Host.toSigned, hnan]
      rfl
    | false =>
      obtain ⟨x, hx⟩ := exists_number? hnan
      rw [toSigned_eq hx, Host.toSigned_eq hx]
  · rw [toSigned_of_isNaN ha, Host.toSigned, ha']
    rfl

theorem toUnsigned_agrees (h : a.Alike a') (s : Flags) :
    (Soft.primitives.toUnsigned a s).1 = Host.toUnsigned a' := by
  rcases h with rfl | ⟨ha, ha'⟩
  · cases hnan : a.isNaN with
    | true =>
      rw [toUnsigned_of_isNaN hnan, Host.toUnsigned, hnan]
      rfl
    | false =>
      obtain ⟨x, hx⟩ := exists_number? hnan
      rw [toUnsigned_eq hx, Host.toUnsigned_eq hx]
  · rw [toUnsigned_of_isNaN ha, Host.toUnsigned, ha']
    rfl

theorem primitives_agree (nan : Host.NaNChoice σ) :
    Soft.primitives.Agree (Host.primitives nan) where
  add := correspond_arithmetic nan (fun s => by
    refine binary_eq (by simp) (fun hx hy => ?_) pack_add (fun v => rfl) (fun u => ?_) s
    · exact Pattern.add_eq Format.regular_binary32 rfl (by decide) hx hy
    · cases u <;> rfl) Host.toWord_add
  sub := correspond_arithmetic nan (fun s => by
    refine binary_eq (by simp) (fun hx hy => ?_) pack_sub (fun v => rfl) (fun u => ?_) s
    · exact Pattern.sub_eq Format.regular_binary32 rfl (by decide) hx hy
    · cases u <;> rfl) Host.toWord_sub
  mul := correspond_arithmetic nan (fun s => by
    refine binary_eq (by simp) (fun hx hy => ?_) pack_mul (fun v => rfl) (fun u => ?_) s
    · exact Pattern.mul_eq Format.regular_binary32 rfl (by decide) hx hy
    · cases u <;> rfl) Host.toWord_mul
  div := correspond_arithmetic nan (fun s => by
    refine binary_eq (by simp) (fun hx hy => ?_) pack_div (fun v => rfl) (fun u => ?_) s
    · exact Pattern.div_eq Format.regular_binary32 rfl (by decide) hx hy
    · cases u <;> rfl) Host.toWord_div
  compareQuiet ha hb := (correspond_compare nan ha hb).1
  compareSignaling ha hb := (correspond_compare nan ha hb).2
  toSigned h s _ := toSigned_agrees h s
  toUnsigned h s _ := toUnsigned_agrees h s
  ofSigned a s _ := (ofInteger_apply a.toInt s).trans (Host.ofSigned_eq a).symm
  ofUnsigned a s _ := (ofInteger_apply a.toNat s).trans (Host.ofUnsigned_eq a).symm
  isEqual ha hb := (correspond_compare nan ha hb).1.map fun _ _ => congrArg (· == some Ordering.eq)
  isLess ha hb := (correspond_compare nan ha hb).2.map fun _ _ => congrArg (· == some Ordering.lt)
  isLessOrEqual ha hb := (correspond_compare nan ha hb).2.map fun _ _ =>
    congrArg fun order => order == some Ordering.lt || order == some Ordering.eq

/-- Whichever NaNs the machine gives, the exact backend and the host backend agree on what they are
asked: in every primitive, in approximate square roots, in all operations, and in what an operation
does to the registers of a core or why it fails. Integers, orderings and words that are no NaNs are
the same. -/
theorem soft_agrees_with_host {σ : Type} (nan : Host.NaNChoice σ) :
    Soft.primitives.Agree (Host.primitives nan) ∧
      (∀ x, Correspond Word.Alike (Soft.primitives.sqrtApprox x)
        ((Host.primitives nan).sqrtApprox x)) ∧
      (∀ (op : Operation) (a b c : Word),
        Correspond op.Alike (op.compute Soft.primitives a b c)
          (op.compute (Host.primitives nan) a b c)) ∧
      ∀ (op : Operation) (o : Operands) (registers : RegisterFile) (s : Flags) (t : σ),
        let soft := Core.execute Soft.primitives op o ⟨registers, s⟩
        let host := Core.execute (Host.primitives nan) op o ⟨registers, t⟩
        Core.EndAlike op o registers (soft.1, soft.2.registers) (host.1, host.2.registers) :=
  ⟨primitives_agree nan, (primitives_agree nan).sqrtApprox, (primitives_agree nan).compute,
    (primitives_agree nan).execute⟩

end Backend
end HartFloat
