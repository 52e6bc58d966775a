import HartFloat.Exact.Magnitude

/-!
# Signs and signed exact values

An exact result is a sign and a magnitude. Zero is written with the positive sign.
-/
namespace HartFloat

/-- The sign of a number or of a pattern. -/
inductive Sign
  | positive
  | negative
  deriving DecidableEq

namespace Sign

def name : Sign → String
  | positive => "Positive"
  | negative => "Negative"

def flip : Sign → Sign
  | positive => negative
  | negative => positive

def mul : Sign → Sign → Sign
  | positive, s => s
  | negative, s => s.flip

def applyTo : Sign → Nat → Int
  | positive, n => n
  | negative, n => -n

def ofInt (n : Int) : Sign := if n < 0 then negative else positive

end Sign

namespace Exact

structure Surd where
  sign : Sign
  magnitude : Magnitude

namespace Surd

def ofRat (q : Rat) : Surd :=
  ⟨Sign.ofInt q.num, Magnitude.ofFraction q.num.natAbs q.den (Nat.pos_of_ne_zero q.den_nz)⟩

def ofInt (n : Int) : Surd := ⟨Sign.ofInt n, Magnitude.ofNat n.natAbs⟩

/-- The real root of the given degree; a negative value has one only in odd degree. -/
def root? (v : Surd) (k : Nat) : Option Surd :=
  if h : 0 < k then
    if v.sign = .negative ∧ k % 2 = 0 then none else some ⟨v.sign, v.magnitude.root k h⟩
  else none

def isZero (v : Surd) : Bool := v.magnitude.isZero

end Surd
end Exact
end HartFloat
