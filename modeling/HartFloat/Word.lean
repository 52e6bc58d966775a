import HartFloat.Text.Hex

/-!
# Words

The 32-bit words that registers and instructions consist of, and the tests on the bits of a
single-precision pattern.
-/
namespace HartFloat

abbrev Word := BitVec 32

namespace Word

def signMask : Word := 0x80000000

def magnitudeMask : Word := 0x7fffffff

/-- The NaN that results are set to when no operand's payload is kept. -/
def canonicalNaN : Word := 0x7fc00000

def infinity : Word := 0x7f800000

def negate (w : Word) : Word := w ^^^ signMask

def isNegative (w : Word) : Bool := w &&& signMask != 0

/-- Whether the pattern is a NaN: its exponent is all ones and its fraction is not zero. -/
def isNaN (w : Word) : Bool := w &&& 0x7f800000 == 0x7f800000 && w &&& 0x007fffff != 0

def isZero (w : Word) : Bool := w &&& magnitudeMask == 0

def hex (w : Word) : String := Text.hexMarked w.toNat 8

end Word
end HartFloat
