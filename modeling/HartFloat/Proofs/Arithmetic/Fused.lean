import HartFloat.Proofs.Arithmetic.ExactNumber
import HartFloat.Proofs.NaN.Canonical

/-!
# Fused multiplication and addition in two steps

A product that is not inexact is the number that exact arithmetic gives, with the sign of the exact
product, or the canonical NaN where there is none. Adding to it is then adding to the exact product,
as the fused operation does. Where payloads are not kept this includes the NaNs: the two steps
together raise what the fused operation raises.
-/
namespace HartFloat

open Pattern

theorem Number.mul_of_product? {a b p : Number} (h : a.product? b = some p) :
    a.mul b = p.exact := by
  rw [mul, h]
  cases p <;> rfl

theorem Number.IsSigned.product? {a b p : Number} (ha : a.IsSigned) (hb : b.IsSigned)
    (hp : a.product? b = some p) : p.IsSigned := by
  cases a with
  | infinite s =>
    cases b with
    | infinite t =>
      obtain rfl := Option.some.inj hp
      trivial
    | finite t q =>
      simp only [Number.product?, ite_eq_iff, reduceCtorEq, and_false, false_or] at hp
      obtain rfl := Option.some.inj hp.2
      trivial
  | finite s q =>
    cases b with
    | infinite t =>
      simp only [Number.product?, ite_eq_iff, reduceCtorEq, and_false, false_or] at hp
      obtain rfl := Option.some.inj hp.2
      trivial
    | finite t r =>
      obtain rfl := Option.some.inj hp
      calc (0 : ℚ) ≤ s.factor * q * (t.factor * r) := mul_nonneg ha hb
        _ = (s.mul t).factor * (q * r) := by
          rw [Sign.factor_mul]
          push_cast
          ring

namespace Pattern

variable {F : Format} {c : Context} {x y z w : Pattern F} {a b d : Number} {f : Flags}

theorem signaled_append (xs ys : List (Pattern F)) :
    signaled (xs ++ ys) = signaled xs ∪ signaled ys := by
  unfold signaled Flags.when
  rw [List.any_append]
  cases xs.any isSignaling <;> cases ys.any isSignaling <;> rfl

theorem signaled_singleton (hw : w.isSignaling = false) : signaled [w] = ∅ := by
  simp [signaled, Flags.when, hw]

section

variable (hp : F.platform.fusedMultiplyAdd = .alwaysCanonical)

include hp

theorem fusedNaN_false (x y z : Pattern F) :
    fusedNaN x y z false = .ok (canonicalNaN F, signaled [x, y, z]) := by
  rw [fusedNaN, nanFrom_select_of_alwaysCanonical hp]
  rfl

theorem fusedNaN_true (hrule : F.platform.infinityTimesZeroPlusNaN = .canonicalAndInvalid)
    (hz : z.isNaN = true) : fusedNaN x y z true = .ok (canonicalNaN F, Flags.nv) := by
  rw [fusedNaN, nanFrom_select_of_alwaysCanonical hp, hrule]
  rw [isNaN, NumberClass.isNaN, Bool.or_eq_true, beq_iff_eq, beq_iff_eq] at hz
  rcases hz with hz | hz
  · rw [hz]
    rfl
  · have hsignaling : z.isSignaling = true := by rw [isSignaling, hz]; rfl
    simp [hz, signaled, Flags.when, hsignaling]

end

theorem fusedMultiplyAdd_of_isNaN (c : Context)
    (hnan : x.isNaN = true ∨ y.isNaN = true ∨ z.isNaN = true) :
    fusedMultiplyAdd c x y z =
      fusedNaN x y z (x.isInfinity && y.isZero || x.isZero && y.isInfinity) := by
  have hany : (x.isNaN || y.isNaN || z.isNaN) = true := by simpa [or_assoc] using hnan
  rw [fusedMultiplyAdd, if_pos hany]

theorem isInfinity_eq_false_of_isNaN (hx : x.isNaN = true) : x.isInfinity = false := by
  rw [isNaN] at hx
  rw [isInfinity]
  revert hx
  cases x.classify <;> decide

section

variable (h : F.Regular)

include h

theorem isNaN_canonicalNaN : (canonicalNaN F).isNaN = true := by
  rw [isNaN, classify_canonicalNaN h.two_le_mantissaWidth h.infinityExponent_ne_zero]
  rfl

theorem signaled_canonicalNaN_cons (xs : List (Pattern F)) :
    signaled (canonicalNaN F :: xs) = signaled xs := by
  have hquiet : (canonicalNaN F).isSignaling = false := by
    rw [isSignaling, classify_canonicalNaN h.two_le_mantissaWidth h.infinityExponent_ne_zero]
    rfl
  rw [signaled, List.any_cons, hquiet, Bool.false_or, signaled]

theorem add_canonicalNaN (hb : F.platform.binaryOperations = .alwaysCanonical) (c : Context)
    (z : Pattern F) : add c (canonicalNaN F) z = .ok (canonicalNaN F, signaled [z]) := by
  rw [eq_binaryNaN List.mem_cons_self (Or.inl (isNaN_canonicalNaN h)),
    binaryNaN_of_alwaysCanonical hb, signaled_canonicalNaN_cons h]

end

theorem isInvalidProduct_eq (h : F.Regular) (hi : F.implicitLeadingBit = true)
    (hx : x.number? = some a) (hy : y.number? = some b) :
    (x.isInfinity && y.isZero || x.isZero && y.isInfinity) = (a.product? b).isNone := by
  rcases product?_cases h hi hx hy with ⟨hp, hinvalid⟩ | ⟨hp, hvalid, -⟩ | ⟨hp, hx, hy, -⟩
  · rw [hp, hinvalid, Option.isNone_none]
  · rw [hp, hvalid, Option.isNone_some]
  · rw [hp, hx, hy, Bool.and_false, Bool.false_and, Bool.or_self, Option.isNone_some]

/-- The fused operation gives what adding to the product gives, with the exceptions of both. -/
def AddsUp (c : Context) (x y z : Pattern F) (r : Pattern F × Flags) : Prop :=
  ∃ v g, add c r.1 z = .ok (v, g) ∧ fusedMultiplyAdd c x y z = .ok (v, r.2 ∪ g)

section

variable (h : F.Regular) (hb : F.platform.binaryOperations = .alwaysCanonical)
  (hf : F.platform.fusedMultiplyAdd = .alwaysCanonical)

include h hb hf

theorem addsUp_of_isNaN (c : Context) (z : Pattern F) (hxy : x.isNaN = true ∨ y.isNaN = true) :
    AddsUp c x y z (canonicalNaN F, signaled [x, y]) := by
  have hfactors : (x.isInfinity && y.isZero || x.isZero && y.isInfinity) = false := by
    rcases hxy with hx | hy
    · rw [isInfinity_eq_false_of_isNaN hx, isZero_eq_false_of_isNaN hx]
      rfl
    · rw [isInfinity_eq_false_of_isNaN hy, isZero_eq_false_of_isNaN hy, Bool.and_false,
        Bool.and_false]
      rfl
  refine ⟨_, _, add_canonicalNaN h hb c z, ?_⟩
  rw [fusedMultiplyAdd_of_isNaN c (or_assoc.mp (Or.inl hxy)), hfactors, fusedNaN_false hf,
    ← signaled_append]
  rfl

variable (hi : F.implicitLeadingBit = true) (hx : x.number? = some a) (hy : y.number? = some b)

include hi hx hy

theorem addsUp_of_product?_eq_none (hwidth : F.exponentWidth ≤ 63)
    (hrule : F.platform.infinityTimesZeroPlusNaN = .canonicalAndInvalid) (c : Context)
    (z : Pattern F) (hp : a.product? b = none) : AddsUp c x y z (canonicalNaN F, Flags.nv) := by
  refine ⟨_, _, add_canonicalNaN h hb c z, ?_⟩
  rcases hz : z.isNaN with _ | _
  · obtain ⟨d, hd⟩ := exists_number?_of_not_isNaN h hz
    rw [fusedMultiplyAdd_eq h hi hwidth hx hy hd, Number.fusedMultiplyAdd, hp,
      signaled_singleton (isSignaling_eq_false_of_isNaN hz), Flags.union_empty]
    rfl
  · have hfactors : (x.isInfinity && y.isZero || x.isZero && y.isInfinity) = true := by
      rw [isInvalidProduct_eq h hi hx hy, hp, Option.isNone_none]
    have hflags : Flags.nv ∪ signaled [z] = Flags.nv := by
      rcases signaled_cases [z] with hz | hz <;> rw [hz] <;> rfl
    rw [fusedMultiplyAdd_of_isNaN c (Or.inr (Or.inr hz)), hfactors, fusedNaN_true hf hrule hz,
      hflags]

theorem addsUp_of_product?_eq_some (hwidth : F.exponentWidth ≤ 63) (c : Context) (z : Pattern F)
    {p : Number} (hp : a.product? b = some p) (hw : w.number? = some p) :
    AddsUp c x y z (w, ∅) := by
  rcases hz : z.isNaN with _ | _
  · obtain ⟨d, hd⟩ := exists_number?_of_not_isNaN h hz
    obtain ⟨v, g, hout, -⟩ := ExactResult.isOutcome_outcome h hwidth c (p.add c.mode d)
    refine ⟨v, g, by rw [add_eq h hi hwidth hw hd, hout], ?_⟩
    rw [fusedMultiplyAdd_eq h hi hwidth hx hy hd, Number.fusedMultiplyAdd, hp, Flags.empty_union]
    exact hout
  · have hfactors : (x.isInfinity && y.isZero || x.isZero && y.isInfinity) = false := by
      rw [isInvalidProduct_eq h hi hx hy, hp, Option.isNone_some]
    have hsilent (t : Pattern F) {q : Number} (ht : t.number? = some q) (xs : List (Pattern F)) :
        signaled (t :: xs) = signaled xs := by
      rw [signaled, List.any_cons, isSignaling_eq_false_of_isNaN (isNaN_of_number? h hi ht),
        Bool.false_or, signaled]
    refine ⟨canonicalNaN F, signaled [z], ?_, ?_⟩
    · rw [eq_binaryNaN List.mem_cons_self (Or.inr hz), binaryNaN_of_alwaysCanonical hb,
        hsilent w hw]
    · rw [fusedMultiplyAdd_of_isNaN c (Or.inr (Or.inr hz)), hfactors, fusedNaN_false hf,
        hsilent x hx, hsilent y hy, Flags.empty_union]

end

section

variable (h : F.Regular) (hi : F.implicitLeadingBit = true) (hwidth : F.exponentWidth ≤ 63)
  (hc : c.exceptions = .ignoreExactUnderflow) (hmul : mul c x y = .ok (w, f))
  (hexact : f.inexact = false)

include h hi hwidth hc hmul hexact

theorem product?_of_exact (hx : x.number? = some a) (hy : y.number? = some b) :
    a.product? b = none ∧ w = canonicalNaN F ∧ f = Flags.nv ∨
      ∃ p, a.product? b = some p ∧ w.number? = some p ∧ f = ∅ := by
  obtain ⟨w', f', hout, hd⟩ := ExactResult.isOutcome_outcome h hwidth c (a.mul b)
  rw [mul_eq h hi hwidth hx hy, hout] at hmul
  obtain ⟨rfl, rfl⟩ := Prod.mk.inj (Except.ok.inj hmul)
  cases hp : a.product? b with
  | none =>
    rw [Number.mul, hp] at hd
    exact Or.inl ⟨rfl, hd.1, hd.2.2⟩
  | some p =>
    rw [Number.mul_of_product? hp] at hd
    have hsigned := (isSigned_of_number? hx).product? (isSigned_of_number? hy) hp
    exact Or.inr ⟨p, rfl, hd.number?_eq h hsigned hexact, hd.flags_eq_empty h hc hexact⟩

/-- Adding to a product that is not inexact gives what the fused operation gives. -/
theorem addsUp_of_exact (hb : F.platform.binaryOperations = .alwaysCanonical)
    (hf : F.platform.fusedMultiplyAdd = .alwaysCanonical)
    (hrule : F.platform.infinityTimesZeroPlusNaN = .canonicalAndInvalid) (z : Pattern F) :
    AddsUp c x y z (w, f) := by
  by_cases hxy : x.isNaN = true ∨ y.isNaN = true
  · have hop : mul ∈ [add (F := F), sub, mul, div, remainder] := by simp
    rw [eq_binaryNaN hop hxy, binaryNaN_of_alwaysCanonical hb] at hmul
    obtain ⟨rfl, rfl⟩ := Prod.mk.inj (Except.ok.inj hmul)
    exact addsUp_of_isNaN h hb hf c z hxy
  · rw [not_or, Bool.not_eq_true, Bool.not_eq_true] at hxy
    obtain ⟨a, hx⟩ := exists_number?_of_not_isNaN h hxy.1
    obtain ⟨b, hy⟩ := exists_number?_of_not_isNaN h hxy.2
    rcases product?_of_exact h hi hwidth hc hmul hexact hx hy with
      ⟨hp, rfl, rfl⟩ | ⟨p, hp, hw, rfl⟩
    · exact addsUp_of_product?_eq_none h hb hf hi hx hy hwidth hrule c z hp
    · exact addsUp_of_product?_eq_some h hb hf hi hx hy hwidth c z hp hw

end

end Pattern
end HartFloat
