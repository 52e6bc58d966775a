import HartFloat.Proofs.NaN.Propagation

/-!
# The canonical NaN

A platform describes its canonical NaN by a sign, the two top bits of the mantissa and one value
for all other bits. Of this description the canonical NaN of a format takes over the top bit alone:
it is positive, and the other bits of its mantissa are the opposite of the top one. So it is the
one that is described on the platforms that follow this form, and on no others. Whatever it looks
like, it is the only NaN that an operation gives whose payloads are not kept.
-/
namespace HartFloat

/-- The platform whose canonical NaN is described by its top bit alone: positive, with the other
bits opposite to that one. -/
def Platform.followingTopBit (p : Platform) : Platform :=
  { p with
    canonicalSign := .positive
    canonicalSecondMsb := !p.canonicalMsb
    canonicalRest := !p.canonicalMsb }

namespace Pattern

variable {F S : Format} {x y z : Pattern F}

/-- The pattern is the canonical NaN that the platform describes. -/
structure IsDescribedBy (x : Pattern F) (p : Platform) : Prop where
  sign : x.sign = p.canonicalSign
  msb : x.mantissa.testBit (F.mantissaWidth - 1) = p.canonicalMsb
  secondMsb : x.mantissa.testBit (F.mantissaWidth - 2) = p.canonicalSecondMsb
  rest : ∀ i < F.mantissaWidth - 2, x.mantissa.testBit i = p.canonicalRest
  quiet : x.classify = .quietNaN

theorem testBit_mantissa_canonicalNaN (hm : 2 ≤ F.mantissaWidth) {i : ℕ}
    (hi : i < F.mantissaWidth) :
    (canonicalNaN F).mantissa.testBit i =
      if i = F.mantissaWidth - 1 then F.platform.canonicalMsb else !F.platform.canonicalMsb := by
  obtain ⟨htwo, -⟩ := two_mul_msb hm
  rw [canonicalNaN, mantissa_pack, Nat.testBit_mod_two_pow, decide_eq_true hi, Bool.true_and,
    Format.quietNaNFormat, Platform.quietNaNFormat]
  cases F.platform.canonicalMsb with
  | true =>
    simp only [if_true, Format.msb, Format.msbShift, Nat.testBit_two_pow, Bool.not_true]
    split_ifs with h <;> simp [h, eq_comm]
  | false =>
    have hones : F.maxMantissa - F.msb = 2 ^ (F.mantissaWidth - 1) - 1 := by
      rw [Format.maxMantissa, ← htwo, Format.msb, Format.msbShift]
      omega
    simp only [Bool.false_eq_true, if_false, hones, Nat.testBit_two_pow_sub_one, Bool.not_false]
    rw [Bool.eq_iff_iff, decide_eq_true_iff]
    split_ifs with h
    · simp [h]
    · exact iff_of_true (by omega) rfl

theorem infinityExponent_pos_iff : F.infinityExponent ≠ 0 ↔ 0 < F.exponentWidth := by
  rw [Format.infinityExponent, Nat.sub_ne_zero_iff_lt, Nat.one_lt_two_pow_iff, Nat.pos_iff_ne_zero]

theorem isDescribedBy_canonicalNaN (hs : F.signBit = true) (hm : 3 ≤ F.mantissaWidth)
    (he : 0 < F.exponentWidth) : (canonicalNaN F).IsDescribedBy F.platform.followingTopBit where
  sign := sign_pack hs _ _ _
  msb := by
    rw [testBit_mantissa_canonicalNaN (by omega) (by omega), if_pos rfl]
    rfl
  secondMsb := by
    rw [testBit_mantissa_canonicalNaN (by omega) (by omega), if_neg (by omega)]
    rfl
  rest i hi := by
    rw [testBit_mantissa_canonicalNaN (by omega) (by omega), if_neg (by omega)]
    rfl
  quiet := classify_canonicalNaN (by omega) (infinityExponent_pos_iff.mpr he)

theorem IsDescribedBy.eq_followingTopBit {p : Platform} (hm : 3 ≤ F.mantissaWidth)
    (h : x.IsDescribedBy p) (htop : x.IsDescribedBy p.followingTopBit) : p.followingTopBit = p := by
  have hsign : p.followingTopBit.canonicalSign = p.canonicalSign := htop.sign.symm.trans h.sign
  have hsecond : p.followingTopBit.canonicalSecondMsb = p.canonicalSecondMsb :=
    htop.secondMsb.symm.trans h.secondMsb
  have hrest : p.followingTopBit.canonicalRest = p.canonicalRest :=
    (htop.rest 0 (by omega)).symm.trans (h.rest 0 (by omega))
  cases p
  simp_all [Platform.followingTopBit]

theorem isNaN_pack {s : Sign} {e m : ℕ}
    (h : F.infinityExponent ≠ 0 → e < F.infinityExponent ∨ m = 0) :
    (pack F s e m).isNaN = false := by
  rw [Bool.eq_false_iff, ne_eq, isNaN_iff]
  rintro ⟨hzero, hexp, hm⟩
  rw [exponent_pack] at hexp
  rw [mantissa_pack] at hm
  rcases h hzero with he | rfl
  · rw [Nat.mod_eq_of_lt (Format.lt_two_pow_iff.mpr he.le)] at hexp
    exact he.ne hexp
  · exact hm (Nat.zero_mod _)

theorem isNaN_rounding (c : Context) (v : Exact.Surd) : (F.rounding c v).1.isNaN = false := by
  unfold Format.rounding Format.roundMagnitude
  dsimp only
  split_ifs with hv hs he hdirection hr hsub
  all_goals apply isNaN_pack; intro hzero
  · exact Or.inr rfl
  · exact Or.inr rfl
  · exact Or.inr rfl
  · left
    unfold Format.maxNormalExponent
    omega
  · exact Or.inr rfl
  · exact Or.inl (Nat.pos_of_ne_zero hzero)
  · left
    unfold Format.maxExponent Format.maxNormalExponent at hr
    omega

theorem exponent_lt_of_finite (hnan : x.isNaN = false) (hinf : x.isInfinity = false)
    (hzero : F.infinityExponent ≠ 0) : x.exponent < F.infinityExponent := by
  refine lt_of_le_of_ne (Format.lt_two_pow_iff.mp x.exponent_lt) fun hexp => ?_
  have hm : x.mantissa = 0 := by
    by_contra hm
    rw [isNaN_iff.mpr ⟨hzero, hexp, hm⟩] at hnan
    cases hnan
  rw [isInfinity, classify, magnitudeClass, if_neg (hexp ▸ hzero), if_pos hexp, if_pos hm] at hinf
  cases hs : x.sign <;> rw [hs] at hinf <;> cases hinf

/-- No NaN other than the canonical one is the result. -/
def OnlyCanonical (o : Outcome (Pattern F)) : Prop :=
  ∀ y f, o = .ok (y, f) → y.isNaN = true → y = canonicalNaN F

theorem onlyCanonical_ok (f : Flags) (h : y.isNaN = false) : OnlyCanonical (.ok (y, f)) := by
  rintro _ _ ⟨⟩ hnan
  rw [h] at hnan
  cases hnan

theorem onlyCanonical_canonicalNaN (f : Flags) : OnlyCanonical (.ok (canonicalNaN F, f)) := by
  rintro _ _ ⟨⟩ -
  rfl

theorem onlyCanonical_signed {s : Sign} {e m : ℕ} (f : Flags)
    (h : F.infinityExponent ≠ 0 → e < F.infinityExponent ∨ m = 0) :
    OnlyCanonical ((signed F s e m).map (·, f)) := by
  rw [signed]
  split_ifs
  · rintro _ _ ⟨⟩
  · exact onlyCanonical_ok f (isNaN_pack h)

theorem onlyCanonical_zero (s : Sign) (f : Flags) : OnlyCanonical ((zero F s).map (·, f)) :=
  onlyCanonical_signed f fun _ => Or.inr rfl

theorem onlyCanonical_infinity (s : Sign) (f : Flags) :
    OnlyCanonical ((infinity F s).map (·, f)) :=
  onlyCanonical_signed f fun _ => Or.inr rfl

theorem onlyCanonical_round (c : Context) (v : Exact.Surd) : OnlyCanonical (F.round c v) := by
  rintro y f hround hnan
  have hy : y = (F.rounding c v).1 := congrArg Prod.fst (Format.round_eq_ok_iff.mp hround).1.symm
  rw [hy, isNaN_rounding] at hnan
  cases hnan

theorem onlyCanonical_bind {α : Type} {r : Except Violation α} {k : α → Outcome (Pattern F)}
    (hk : ∀ a, OnlyCanonical (k a)) : OnlyCanonical (r.bind k) := by
  cases r with
  | error v => rintro _ _ ⟨⟩
  | ok a => exact hk a

theorem onlyCanonical_map_flags {o : Outcome (Pattern F)} (ho : OnlyCanonical o)
    (g : Flags → Flags) : OnlyCanonical (o.map fun r => (r.1, g r.2)) := by
  cases o with
  | error v => rintro _ _ ⟨⟩
  | ok r =>
    rintro _ _ ⟨⟩ hnan
    exact ho _ _ rfl hnan

theorem onlyCanonical_ofSum (c : Context) (q : ℚ) : OnlyCanonical (ofSum F c q) := by
  rw [ofSum]
  split_ifs
  · exact onlyCanonical_zero _ ∅
  · exact onlyCanonical_round c _

theorem nanFrom_choose_nil (b : Bool) :
    nanFrom (NaN.choose b classify ([] : List (Pattern F))) = canonicalNaN F := by
  rw [choose_nil]
  rfl

theorem binaryNaN_of_alwaysCanonical (h : F.platform.binaryOperations = .alwaysCanonical)
    (x y : Pattern F) : binaryNaN x y = .ok (canonicalNaN F, signaled [x, y]) := by
  rw [binaryNaN, h]
  rfl

theorem unaryNaN_alwaysCanonical (x : Pattern F) :
    unaryNaN .alwaysCanonical x = .ok (canonicalNaN F, signaled [x]) := rfl

section

variable (h : F.platform.binaryOperations = .alwaysCanonical) (c : Context)

include h

theorem onlyCanonical_addTerm (x y : Pattern F) (k : NumberClass) (r : Except Violation ℚ) :
    OnlyCanonical (addTerm c x y k r) := by
  unfold addTerm
  dsimp only
  rw [binaryNaN_of_alwaysCanonical h]
  split_ifs
  · exact onlyCanonical_canonicalNaN _
  · exact onlyCanonical_canonicalNaN _
  · exact onlyCanonical_infinity _ ∅
  · exact onlyCanonical_infinity _ ∅
  · exact onlyCanonical_zero _ ∅
  · exact onlyCanonical_zero _ ∅
  · exact onlyCanonical_bind fun _ => onlyCanonical_bind fun _ => onlyCanonical_ofSum c _

theorem onlyCanonical_mul (x y : Pattern F) : OnlyCanonical (mul c x y) := by
  unfold mul
  dsimp only
  rw [binaryNaN_of_alwaysCanonical h]
  split_ifs
  · exact onlyCanonical_canonicalNaN _
  · exact onlyCanonical_canonicalNaN _
  · exact onlyCanonical_zero _ ∅
  · exact onlyCanonical_infinity _ ∅
  · exact onlyCanonical_bind fun _ => onlyCanonical_bind fun _ => onlyCanonical_round c _

theorem onlyCanonical_div (x y : Pattern F) : OnlyCanonical (div c x y) := by
  unfold div
  dsimp only
  rw [binaryNaN_of_alwaysCanonical h]
  split_ifs
  · exact onlyCanonical_canonicalNaN _
  · exact onlyCanonical_canonicalNaN _
  · exact onlyCanonical_zero _ ∅
  · exact onlyCanonical_infinity _ ∅
  · exact onlyCanonical_infinity _ Flags.dz
  · exact onlyCanonical_bind fun _ => onlyCanonical_bind fun _ => onlyCanonical_round c _

theorem onlyCanonical_remainder (x y : Pattern F) : OnlyCanonical (remainder c x y) := by
  unfold remainder
  dsimp only
  rw [binaryNaN_of_alwaysCanonical h]
  split_ifs
  · exact onlyCanonical_canonicalNaN _
  · exact onlyCanonical_canonicalNaN _
  · exact onlyCanonical_zero _ ∅
  · exact onlyCanonical_bind fun _ => onlyCanonical_round c _
  · refine onlyCanonical_bind fun _ => onlyCanonical_bind fun _ => ?_
    split_ifs
    · exact onlyCanonical_zero _ ∅
    · exact onlyCanonical_round c _

end

theorem nanFrom_select_of_alwaysCanonical (h : F.platform.fusedMultiplyAdd = .alwaysCanonical)
    (x y z : Pattern F) :
    nanFrom (F.platform.fusedMultiplyAdd.select classify x y z) = canonicalNaN F := by
  rw [h]
  exact nanFrom_choose_nil _

section

variable (h : F.platform.fusedMultiplyAdd = .alwaysCanonical)
  (hother : F.platform.infinityTimesZeroPlusNaN ≠ .propagateAndInvalid)

include h hother

theorem exists_fusedNaN_eq (x y z : Pattern F) (infinityTimesZero : Bool) :
    ∃ f, fusedNaN x y z infinityTimesZero = .ok (canonicalNaN F, f) := by
  rw [fusedNaN, nanFrom_select_of_alwaysCanonical h]
  split_ifs
  · cases hrule : F.platform.infinityTimesZeroPlusNaN with
    | followPropagation | canonicalAndInvalid => exact ⟨_, rfl⟩
    | propagateAndInvalid => exact absurd hrule hother
  · exact ⟨_, rfl⟩

theorem onlyCanonical_fusedMultiplyAdd (c : Context) (x y z : Pattern F) :
    OnlyCanonical (fusedMultiplyAdd c x y z) := by
  unfold fusedMultiplyAdd
  dsimp only
  split_ifs
  · obtain ⟨f, hf⟩ := exists_fusedNaN_eq h hother x y z
      ((x.isInfinity && y.isZero) || (x.isZero && y.isInfinity))
    rw [hf]
    exact onlyCanonical_canonicalNaN f
  · exact onlyCanonical_canonicalNaN _
  · exact onlyCanonical_zero _ ∅
  · exact onlyCanonical_infinity _ ∅
  · exact onlyCanonical_infinity _ ∅
  · exact onlyCanonical_bind fun _ => onlyCanonical_bind fun _ => onlyCanonical_bind fun _ =>
      onlyCanonical_ofSum c _

end

theorem onlyCanonical_roundToIntegral (h : F.platform.roundToIntegral = .alwaysCanonical)
    (c : Context) (exact : Bool) (x : Pattern F) : OnlyCanonical (roundToIntegral c exact x) := by
  unfold roundToIntegral
  dsimp only
  rw [h, unaryNaN_alwaysCanonical]
  split_ifs
  · exact onlyCanonical_canonicalNaN _
  · exact onlyCanonical_infinity _ ∅
  · refine onlyCanonical_bind fun q => ?_
    split_ifs
    · exact onlyCanonical_zero _ _
    · exact onlyCanonical_map_flags (onlyCanonical_round c _) (_ ∪ ·)

theorem onlyCanonical_scaleB (h : F.platform.scaling = .alwaysCanonical) (c : Context) (n : ℤ)
    (x : Pattern F) : OnlyCanonical (scaleB c n x) := by
  unfold scaleB
  dsimp only
  rw [h, unaryNaN_alwaysCanonical]
  split_ifs
  · exact onlyCanonical_canonicalNaN _
  · exact onlyCanonical_infinity _ ∅
  · exact onlyCanonical_zero _ ∅
  · exact onlyCanonical_bind fun _ => onlyCanonical_bind fun _ => onlyCanonical_round c _

theorem onlyCanonical_sqrt (h : F.platform.squareRoot = .alwaysCanonical) (c : Context)
    (x : Pattern F) : OnlyCanonical (sqrt c x) := by
  unfold sqrt
  rw [h, unaryNaN_alwaysCanonical]
  split_ifs
  · exact onlyCanonical_canonicalNaN _
  · exact onlyCanonical_zero _ ∅
  · exact onlyCanonical_infinity _ ∅
  · exact onlyCanonical_canonicalNaN _
  · exact onlyCanonical_bind fun _ => onlyCanonical_round c _

theorem onlyCanonical_rsqrt (h : F.platform.reciprocalSquareRoot = .alwaysCanonical)
    (c : Context) (x : Pattern F) : OnlyCanonical (rsqrt c x) := by
  unfold rsqrt
  rw [h, unaryNaN_alwaysCanonical]
  split_ifs
  · exact onlyCanonical_canonicalNaN _
  · exact onlyCanonical_infinity _ Flags.dz
  · exact onlyCanonical_ok ∅ (isNaN_pack fun _ => Or.inr rfl)
  · exact onlyCanonical_canonicalNaN _
  · exact onlyCanonical_bind fun _ => onlyCanonical_round c _

theorem isNaN_towardZero (hnan : x.isNaN = false) (hinf : x.isInfinity = false) :
    x.towardZero.isNaN = false := by
  unfold towardZero withFields
  split_ifs
  all_goals
    apply isNaN_pack
    intro hzero
    have := exponent_lt_of_finite hnan hinf hzero
    omega

theorem onlyCanonical_awayFromZero (hnan : x.isNaN = false) (hinf : x.isInfinity = false) :
    OnlyCanonical (quietly x.awayFromZero) := by
  unfold awayFromZero
  split_ifs with hm he
  · refine onlyCanonical_ok ∅ (isNaN_pack fun hzero => Or.inl ?_)
    exact exponent_lt_of_finite hnan hinf hzero
  · exact onlyCanonical_infinity _ ∅
  · refine onlyCanonical_ok ∅ (isNaN_pack fun hzero => Or.inl ?_)
    have := exponent_lt_of_finite hnan hinf hzero
    unfold Format.maxNormalExponent at he
    omega

theorem onlyCanonical_next (h : F.platform.neighbour = .alwaysCanonical) (d : Direction)
    (x : Pattern F) : OnlyCanonical (next d x) := by
  unfold next
  rw [h, unaryNaN_alwaysCanonical]
  split_ifs with hnan hinf hsign hzero hsign
  · exact onlyCanonical_canonicalNaN _
  · exact onlyCanonical_ok ∅ (Bool.eq_false_iff.mpr hnan)
  · refine onlyCanonical_signed ∅ fun hzero => Or.inl ?_
    unfold Format.maxNormalExponent
    omega
  · exact onlyCanonical_signed ∅ fun hzero => Or.inl (Nat.pos_of_ne_zero hzero)
  · exact onlyCanonical_awayFromZero (Bool.eq_false_iff.mpr hnan) (Bool.eq_false_iff.mpr hinf)
  · refine onlyCanonical_ok ∅ ?_
    exact isNaN_towardZero (Bool.eq_false_iff.mpr hnan) (Bool.eq_false_iff.mpr hinf)

theorem onlyCanonical_convert (h : F.platform.conversion = .alwaysCanonical) (c : Context)
    (x : Pattern S) : OnlyCanonical (convert F c x) := by
  unfold convert
  rw [h]
  split_ifs
  · exact onlyCanonical_canonicalNaN _
  · exact onlyCanonical_infinity _ ∅
  · exact onlyCanonical_zero _ ∅
  · exact onlyCanonical_bind fun _ => onlyCanonical_round c _

/-- The result is the canonical NaN if an operand is a NaN, and it is no other NaN in any case. -/
structure DeliversCanonical (nan : Prop) (o : Outcome (Pattern F)) : Prop where
  of_isNaN : nan → ∃ f, o = .ok (canonicalNaN F, f)
  only : OnlyCanonical o

/-- All operations for which the platform of the format keeps no payloads deliver the canonical
NaN. A platform may still hand on a NaN that is added to the product of an infinity and a zero. -/
structure CanonicalResults (F : Format) : Prop where
  binary (h : F.platform.binaryOperations = .alwaysCanonical) (c : Context) (x y : Pattern F) :
    ∀ op ∈ [add, sub, mul, div, remainder],
      DeliversCanonical (x.isNaN = true ∨ y.isNaN = true) (op c x y)
  fusedMultiplyAdd (h : F.platform.fusedMultiplyAdd = .alwaysCanonical)
    (hother : F.platform.infinityTimesZeroPlusNaN ≠ .propagateAndInvalid) (c : Context)
    (x y z : Pattern F) :
    DeliversCanonical (x.isNaN = true ∨ y.isNaN = true ∨ z.isNaN = true)
      (Pattern.fusedMultiplyAdd c x y z)
  roundToIntegral (h : F.platform.roundToIntegral = .alwaysCanonical) (c : Context) (exact : Bool)
    (x : Pattern F) : DeliversCanonical (x.isNaN = true) (Pattern.roundToIntegral c exact x)
  next (h : F.platform.neighbour = .alwaysCanonical) (d : Direction) (x : Pattern F) :
    DeliversCanonical (x.isNaN = true) (Pattern.next d x)
  scaleB (h : F.platform.scaling = .alwaysCanonical) (c : Context) (n : ℤ) (x : Pattern F) :
    DeliversCanonical (x.isNaN = true) (Pattern.scaleB c n x)
  sqrt (h : F.platform.squareRoot = .alwaysCanonical) (c : Context) (x : Pattern F) :
    DeliversCanonical (x.isNaN = true) (Pattern.sqrt c x)
  rsqrt (h : F.platform.reciprocalSquareRoot = .alwaysCanonical) (c : Context) (x : Pattern F) :
    DeliversCanonical (x.isNaN = true) (Pattern.rsqrt c x)
  convert {S : Format} (h : F.platform.conversion = .alwaysCanonical) (c : Context)
    (x : Pattern S) : DeliversCanonical (x.isNaN = true) (Pattern.convert F c x)

theorem canonicalResults (F : Format) : CanonicalResults F where
  binary h c x y op hop := by
    refine ⟨fun hnan => ⟨signaled [x, y], ?_⟩, ?_⟩
    · rw [eq_binaryNaN hop hnan, binaryNaN_of_alwaysCanonical h]
    · simp only [List.mem_cons, List.not_mem_nil, or_false] at hop
      rcases hop with rfl | rfl | rfl | rfl | rfl
      · exact onlyCanonical_addTerm h c x y _ _
      · exact onlyCanonical_addTerm h c x y _ _
      · exact onlyCanonical_mul h c x y
      · exact onlyCanonical_div h c x y
      · exact onlyCanonical_remainder h c x y
  fusedMultiplyAdd h hother c x y z := by
    refine ⟨fun hnan => ?_, onlyCanonical_fusedMultiplyAdd h hother c x y z⟩
    rw [Pattern.fusedMultiplyAdd, if_pos (by simpa [or_assoc] using hnan)]
    exact exists_fusedNaN_eq h hother x y z _
  roundToIntegral h c exact x := by
    refine ⟨fun hnan => ⟨signaled [x], ?_⟩, onlyCanonical_roundToIntegral h c exact x⟩
    rw [Pattern.roundToIntegral, if_pos hnan, h, unaryNaN_alwaysCanonical]
  next h d x := by
    refine ⟨fun hnan => ⟨signaled [x], ?_⟩, onlyCanonical_next h d x⟩
    rw [Pattern.next, if_pos hnan, h, unaryNaN_alwaysCanonical]
  scaleB h c n x := by
    refine ⟨fun hnan => ⟨signaled [x], ?_⟩, onlyCanonical_scaleB h c n x⟩
    rw [Pattern.scaleB, if_pos hnan, h, unaryNaN_alwaysCanonical]
  sqrt h c x := by
    refine ⟨fun hnan => ⟨signaled [x], ?_⟩, onlyCanonical_sqrt h c x⟩
    rw [Pattern.sqrt, if_pos hnan, h, unaryNaN_alwaysCanonical]
  rsqrt h c x := by
    refine ⟨fun hnan => ⟨signaled [x], ?_⟩, onlyCanonical_rsqrt h c x⟩
    rw [Pattern.rsqrt, if_pos hnan, h, unaryNaN_alwaysCanonical]
  convert h c x := by
    refine ⟨fun hnan => ⟨signaled [x], ?_⟩, onlyCanonical_convert h c x⟩
    rw [Pattern.convert, if_pos hnan, h]

/-- The canonical NaN has the top bit that the platform describes, and is the one that the platform
describes exactly if the platform follows that bit in all other fields. Operations deliver this
NaN and no other where payloads are not kept. -/
theorem isDescribedBy_canonicalNaN_iff (hs : F.signBit = true) (hm : 3 ≤ F.mantissaWidth) :
    (0 < F.exponentWidth → (canonicalNaN F).IsDescribedBy F.platform.followingTopBit) ∧
      ((canonicalNaN F).IsDescribedBy F.platform ↔
        0 < F.exponentWidth ∧ F.platform.followingTopBit = F.platform) ∧
      CanonicalResults F := by
  refine ⟨isDescribedBy_canonicalNaN hs hm, ⟨fun h => ?_, ?_⟩, canonicalResults F⟩
  · have hnan : (canonicalNaN F).isNaN = true := by
      rw [isNaN, h.quiet]
      rfl
    have he : 0 < F.exponentWidth := infinityExponent_pos_iff.mp (isNaN_iff.mp hnan).1
    exact ⟨he, h.eq_followingTopBit hm (isDescribedBy_canonicalNaN hs hm he)⟩
  · rintro ⟨he, hp⟩
    exact hp ▸ isDescribedBy_canonicalNaN hs hm he

/-- In single precision the canonical NaN is the described one on a platform whose top bit is clear
and whose other bits are set. -/
theorem isDescribedBy_canonicalNaN_iff_mipsLegacy :
    let F : Format := { Format.binary32 with platform := Platform.mipsLegacy }
    F.signBit = true ∧ 3 ≤ F.mantissaWidth ∧ (canonicalNaN F).IsDescribedBy Platform.mipsLegacy ∧
      (canonicalNaN F).bits = 0x7fbfffff := by
  intro F
  have hm : 3 ≤ F.mantissaWidth := by decide
  exact ⟨rfl, hm, (isDescribedBy_canonicalNaN_iff rfl hm).2.1.mpr ⟨by decide, rfl⟩, by decide⟩

/-- The sign that a platform describes is not honoured, even where the other fields are. -/
theorem not_isDescribedBy_x86Sse :
    ¬∀ F : Format, F.signBit = true → 3 ≤ F.mantissaWidth →
      ¬(F.platform.canonicalMsb = false ∧ F.platform.canonicalSecondMsb = false ∧
        F.platform.canonicalRest = false) → (canonicalNaN F).IsDescribedBy F.platform := by
  intro h
  have hx86 := (h { Format.binary32 with platform := Platform.x86Sse } rfl (by decide)
    (by decide)).sign
  revert hx86
  decide

end Pattern
end HartFloat
