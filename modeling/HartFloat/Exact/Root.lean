import HartFloat.Power

/-!
# Integer roots

The floor of the `k`-th root of a natural number, found one binary digit at a time from the
top. The main facts are that the answer's power does not exceed the number and that the next
answer's power does.
-/
namespace HartFloat.Exact

/-- Extends the root `r`, known down to digit `i`, by the `i` digits below: a digit is kept
exactly when the power stays within `n`. -/
def extendRoot (k n : Nat) : (i : Nat) → (r : Nat) → Nat
  | 0, r => r
  | i + 1, r => extendRoot k n i (if (r + 2 ^ i) ^ k ≤ n then r + 2 ^ i else r)

def floorRoot (k n : Nat) : Nat :=
  if k = 1 then n else extendRoot k n (n.log2 / k + 1) 0

@[simp] theorem floorRoot_one (n : Nat) : floorRoot 1 n = n := rfl

theorem extendRoot_pow_le {k n : Nat} : ∀ {i r : Nat}, r ^ k ≤ n → extendRoot k n i r ^ k ≤ n
  | 0, _, h => h
  | i + 1, r, h => by
    unfold extendRoot
    apply extendRoot_pow_le
    split <;> assumption

theorem lt_extendRoot_succ_pow {k n : Nat} :
    ∀ {i r : Nat}, n < (r + 2 ^ i) ^ k → n < (extendRoot k n i r + 1) ^ k
  | 0, _, h => h
  | i + 1, r, h => by
    unfold extendRoot
    apply lt_extendRoot_succ_pow
    split
    · rwa [Nat.pow_succ, Nat.mul_two, ← Nat.add_assoc] at h
    · omega

theorem floorRoot_pow_le {k n : Nat} (hk : 0 < k) : floorRoot k n ^ k ≤ n := by
  unfold floorRoot
  split
  · next h => subst h; simp
  · apply extendRoot_pow_le
    simp [Nat.zero_pow hk]

theorem lt_floorRoot_succ_pow {k n : Nat} (hk : 0 < k) : n < (floorRoot k n + 1) ^ k := by
  unfold floorRoot
  split
  · next h => subst h; simp
  · apply lt_extendRoot_succ_pow
    rw [Nat.zero_add, ← Nat.pow_mul]
    refine Nat.lt_of_lt_of_le (Nat.lt_log2_self) (Nat.pow_le_pow_right (by decide) ?_)
    have := Nat.div_add_mod n.log2 k
    have := Nat.mod_lt n.log2 hk
    rw [Nat.add_mul, Nat.mul_comm]
    omega

end HartFloat.Exact
