import HartFloat.Backend.Primitives
import HartFloat.Pattern.Compare
import HartFloat.Pattern.Integer

/-!
# The exact backend

Single-precision arithmetic by exact computation and one rounding to nearest, ties to even;
conversions to integers round toward zero. Every operation starts from a clean environment, and the
exceptions it raises are added to those that the backend has collected.
-/
namespace HartFloat.Backend.Soft

abbrev Single := Pattern Format.binary32

def ofWord (w : Word) : Single := ⟨w.toNat, w.isLt⟩

def toWord (x : Single) : Word := BitVec.ofNatLT x.bits x.bits_lt

@[simp] theorem toWord_ofWord (w : Word) : toWord (ofWord w) = w := by
  simp [toWord, ofWord]

@[simp] theorem ofWord_toWord (x : Single) : ofWord (toWord x) = x := rfl

def nearest : Context := {}

def truncating : Context := { mode := .towardZero }

/-- Adds the exceptions of an operation to those collected. -/
def collect {α : Type} (r : α × Flags) : StateM Flags α := do
  modify (· ∪ r.2)
  return r.1

/-- The result of an operation, which has one because single precision has a sign bit and its
exponents fit. -/
def settle {α : Type} (fallback : α) (r : Outcome α) : α × Flags :=
  match r with
  | .ok r => r
  | .error _ => (fallback, Flags.nv)

/-- The word of the pattern that an operation yields. -/
def settleWord (r : Outcome Single) : StateM Flags Word :=
  toWord <$> collect (settle (Pattern.canonicalNaN Format.binary32) r)

def binary (op : Context → Single → Single → Outcome Single) (a b : Word) : StateM Flags Word :=
  settleWord (op nearest (ofWord a) (ofWord b))

/-- What a conversion to an integer type gives when there is no result: the largest integer for
NaNs and positive numbers, the least one for negative numbers. -/
def saturate (largest least a : Word) : Word :=
  if Word.isNaN a || !Word.isNegative a then largest else least

def convert (t : IntegerType) (largest least a : Word) : StateM Flags Word := do
  match ← collect (settle none ((ofWord a).toIntegerType truncating true t)) with
  | some n => return BitVec.ofInt 32 n
  | none => return saturate largest least a

def primitives : Primitives Flags where
  name := "simple-soft-float"
  add := binary Pattern.add
  sub := binary Pattern.sub
  mul := binary Pattern.mul
  div := binary Pattern.div
  compareQuiet a b := collect (settle none ((ofWord a).compareQuiet (ofWord b)))
  compareSignaling a b := collect (settle none ((ofWord a).compareSignaling (ofWord b)))
  toSigned := convert (.signed 32) 0x7fffffff 0x80000000
  toUnsigned := convert (.unsigned 32) 0xffffffff 0
  ofSigned a := settleWord (Pattern.ofInteger Format.binary32 nearest a.toInt)
  ofUnsigned a := settleWord (Pattern.ofInteger Format.binary32 nearest a.toNat)
  flags := id

end HartFloat.Backend.Soft
