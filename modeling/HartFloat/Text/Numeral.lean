import HartFloat.Text.Hex

/-!
# Reading integers

An integer of a range is read digit by digit. The first character that is no digit, or that takes
the value out of the range, decides how the reading fails.
-/
namespace HartFloat.Text

/-- Why a text is no integer of a range. -/
inductive NumeralError
  | empty
  | invalidDigit
  | tooLarge
  | tooSmall
  deriving DecidableEq

def NumeralError.message : NumeralError → String
  | empty => "cannot parse integer from empty string"
  | invalidDigit => "invalid digit found in string"
  | tooLarge => "number too large to fit in target type"
  | tooSmall => "number too small to fit in target type"

/-- The numerals of a base, at most sixteen, for the integers from `least` to `greatest`. -/
structure Numeral where
  base : Nat
  least : Int
  greatest : Int

namespace Numeral

/-- The numerals of the unsigned integers with the given number of bits. -/
def unsigned (base width : Nat) : Numeral := ⟨base, 0, 2 ^ width - 1⟩

/-- The numerals of the signed integers with the given number of bits. -/
def signed (base width : Nat) : Numeral := ⟨base, -2 ^ (width - 1), 2 ^ (width - 1) - 1⟩

def digit? (n : Numeral) (c : Char) : Option Nat := (hexValue? c).filter (· < n.base)

/-- Reads digits, each with the given weight, after those that made the value `v`. -/
def readDigits (n : Numeral) (weight : Int) : (v : Int) → List Char → Except NumeralError Int
  | v, [] => .ok v
  | v, c :: cs =>
    match n.digit? c with
    | none => .error .invalidDigit
    | some d =>
      let v := v * n.base + weight * d
      if n.greatest < v then .error .tooLarge
      else if v < n.least then .error .tooSmall
      else n.readDigits weight v cs

/-- Reads one or more digits, before which a sign may stand: a plus always, and a minus where the
range has negative integers. -/
def read (n : Numeral) (s : List Char) : Except NumeralError Int :=
  match s with
  | [] => .error .empty
  | ['+'] | ['-'] => .error .invalidDigit
  | '+' :: cs => n.readDigits 1 0 cs
  | '-' :: cs => if n.least < 0 then n.readDigits (-1) 0 cs else .error .invalidDigit
  | cs => n.readDigits 1 0 cs

end Numeral

/-- The digits after the base mark, if there is one. -/
def afterBaseMark? : List Char → Option (List Char)
  | '0' :: 'x' :: cs | '0' :: 'X' :: cs => some cs
  | _ => none

end HartFloat.Text
