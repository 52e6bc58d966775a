import HartFloat.Backend.Primitives

/-!
# The host backend

Single-precision arithmetic by the machine's own floating-point numbers, which round to nearest,
ties to even. It keeps no record of exceptions. Which NaN the machine gives for a result that is
not a number is left to the machine.
-/
namespace HartFloat.Backend.Host

def ofWord (w : Word) : Float32 := Float32.ofBits (UInt32.ofBitVec w)

def toWord (x : Float32) : Word := x.toBits.toBitVec

def order (a b : Word) : Option Ordering :=
  let x := ofWord a
  let y := ofWord b
  if x < y then some .lt else if y < x then some .gt else if x == y then some .eq else none

/-- The number truncated to an unsigned integer; what does not fit saturates. -/
def truncate (x : Float32) : Word := x.toUInt32.toBitVec

/-- The conversion to an unsigned integer. A NaN gives the largest one. -/
def toUnsigned (a : Word) : Word := if Word.isNaN a then 0xffffffff else truncate (ofWord a)

/-- The conversion to a signed integer by way of the magnitude. A NaN gives the largest one. -/
def toSigned (a : Word) : Word :=
  let magnitude := truncate (ofWord (a &&& Word.magnitudeMask))
  if Word.isNaN a then 0x7fffffff
  else if Word.isNegative a then (if magnitude.toNat ≤ 0x80000000 then -magnitude else 0x80000000)
  else if magnitude.toNat < 0x80000000 then magnitude
  else 0x7fffffff

def ofUnsigned (a : Word) : Word := toWord (UInt32.ofBitVec a).toFloat32

/-- The number nearest to a signed integer, by way of the magnitude. -/
def ofSigned (a : Word) : Word :=
  if a.msb then Word.negate (ofUnsigned (-a)) else ofUnsigned a

/-- The operations whose result may not be a number. -/
inductive Arithmetic
  | add
  | sub
  | mul
  | div

def Arithmetic.native : Arithmetic → Float32 → Float32 → Float32
  | add => (· + ·)
  | sub => (· - ·)
  | mul => (· * ·)
  | div => (· / ·)

/-- The NaN that the machine gives for an operation on two operands. Its bits are not fixed: they
may depend on whatever the machine keeps. -/
abbrev NaNChoice (σ : Type) := Arithmetic → Word → Word → StateM σ { w : Word // w.isNaN = true }

variable {σ : Type}

def arithmetic (nan : NaNChoice σ) (op : Arithmetic) (a b : Word) : StateM σ Word :=
  let r := toWord (op.native (ofWord a) (ofWord b))
  if r.isNaN then Subtype.val <$> nan op a b else pure r

def primitives (nan : NaNChoice σ) : Primitives σ where
  name := "host-f32"
  add := arithmetic nan .add
  sub := arithmetic nan .sub
  mul := arithmetic nan .mul
  div := arithmetic nan .div
  compareQuiet a b := pure (order a b)
  compareSignaling a b := pure (order a b)
  toSigned a := pure (toSigned a)
  toUnsigned a := pure (toUnsigned a)
  ofSigned a := pure (ofSigned a)
  ofUnsigned a := pure (ofUnsigned a)

/-- A machine that always gives the canonical NaN. -/
def canonical : NaNChoice Unit := fun _ _ _ => pure ⟨Word.canonicalNaN, by decide⟩

end HartFloat.Backend.Host
