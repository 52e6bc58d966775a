import HartFloat.Platform

/-!
# Binary floating-point formats

A format says how many bits its exponent and mantissa fields have, whether the leading bit of a
normal number is implied, whether there is a sign bit, and which platform's NaN conventions hold.
All other quantities of the format follow from these.
-/
namespace HartFloat

structure Format where
  exponentWidth : Nat
  mantissaWidth : Nat
  implicitLeadingBit : Bool := true
  signBit : Bool := true
  platform : Platform := Platform.riscV
  deriving DecidableEq

namespace Format

/-- The exponent width of the interchange format of a width beyond 128: four times the binary
logarithm of the width, rounded, less thirteen. -/
def wideExponentWidth (width : Nat) : Nat := (2 * width ^ (8 : Nat)).log2 / 2 - 13

def interchange? (width : Nat) (platform : Platform := Platform.riscV) : Option Format :=
  match width with
  | 16 => some { exponentWidth := 5, mantissaWidth := 10, platform }
  | 32 => some { exponentWidth := 8, mantissaWidth := 23, platform }
  | 64 => some { exponentWidth := 11, mantissaWidth := 52, platform }
  | 128 => some { exponentWidth := 15, mantissaWidth := 112, platform }
  | _ =>
    if 128 < width ∧ width % 32 = 0 then
      let exponentWidth := wideExponentWidth width
      some { exponentWidth, mantissaWidth := width - exponentWidth - 1, platform }
    else none

def binary32 : Format := { exponentWidth := 8, mantissaWidth := 23 }

variable (F : Format)

def width : Nat := F.signBit.toNat + F.exponentWidth + F.mantissaWidth

/-- The number of significand bits after the binary point. -/
def fractionWidth : Nat := F.mantissaWidth - (!F.implicitLeadingBit).toNat

/-- The position of the sign bit, also in a format that has none. -/
def signShift : Nat := F.exponentWidth + F.mantissaWidth

def msbShift : Nat := F.mantissaWidth - 1

def msb : Nat := 2 ^ F.msbShift

def maxMantissa : Nat := 2 ^ F.mantissaWidth - 1

/-- The least mantissa field of a normal number. -/
def minNormalMantissa : Nat := if F.implicitLeadingBit then 0 else 2 ^ F.fractionWidth

/-- The significand of the number one: its bit before the binary point. -/
def unit : Nat := 2 ^ F.fractionWidth

/-- The exponent field of infinities and NaNs. -/
def infinityExponent : Nat := 2 ^ F.exponentWidth - 1

/-- The largest exponent field of a normal number. -/
def maxNormalExponent : Nat := F.infinityExponent - 1

/-- What is subtracted from the exponent field of a normal number. -/
def bias : Nat := 2 ^ (F.exponentWidth - 1) - 1

def minExponent : Int := 1 - (F.bias : Int)

def maxExponent : Int := (F.maxNormalExponent : Int) - F.bias

/-- The number of patterns that the three fields can hold together; the place of the sign bit
counts even when the format has none. -/
def capacity : Nat := 2 ^ (F.signShift + 1)

def mask : Nat := F.capacity - 1

def quietNaNFormat : QuietNaNFormat := F.platform.quietNaNFormat

/-- Whether this is the interchange format of its width. -/
def isInterchange : Bool := decide (interchange? F.width F.platform = some F)

end Format
end HartFloat
