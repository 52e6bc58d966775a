import HartFloat.Backend.Soft
import HartFloat.Decimal.Shortest

/-!
# Reading decimal literals

A literal is a decimal with an optional point and an optional exponent, or the name of an infinity
or a NaN, and it may have a sign. It is read exactly and then rounded once, to nearest and ties to
even.
-/
namespace HartFloat.Decimal

inductive LiteralError
  | empty
  | malformed
  deriving DecidableEq

def LiteralError.message : LiteralError → String
  | empty => "cannot parse float from empty string"
  | malformed => "invalid float literal"

/-- A literal without its sign. A number is given by its digits, read as an integer, and the power
of ten that they are multiplied by. -/
inductive Quantity
  | nan
  | infinity
  | number (digits : Nat) (exponent : Int)
  deriving DecidableEq

structure Literal where
  sign : Sign
  quantity : Quantity
  deriving DecidableEq

def numberOf (digits : List Char) : Nat :=
  digits.foldl (fun n c => 10 * n + (c.toNat - '0'.toNat)) 0

/-- The sign that a text begins with, and what follows it. -/
def splitSign : List Char → Sign × List Char
  | '-' :: cs => (.negative, cs)
  | '+' :: cs => (.positive, cs)
  | cs => (.positive, cs)

def splitDigits (cs : List Char) : List Char × List Char :=
  (cs.takeWhile Char.isDigit, cs.dropWhile Char.isDigit)

def splitFraction : List Char → List Char × List Char
  | '.' :: cs => splitDigits cs
  | cs => ([], cs)

/-- The exponent that the whole text is; no text is no exponent. -/
def exponent? : List Char → Option Int
  | [] => some 0
  | c :: cs =>
    let (sign, digits) := splitSign cs
    if (c = 'e' ∨ c = 'E') ∧ digits ≠ [] ∧ digits.all Char.isDigit then
      some (sign.applyTo (numberOf digits))
    else none

namespace Quantity

def number? (cs : List Char) : Option Quantity :=
  let (whole, rest) := splitDigits cs
  let (fraction, rest) := splitFraction rest
  let digits := whole ++ fraction
  if digits = [] then none
  else (exponent? rest).map fun e => number (numberOf digits) (e - fraction.length)

/-- Reads the name of an infinity or a NaN; case does not matter. -/
def named? (cs : List Char) : Option Quantity :=
  match String.ofList (cs.map Char.toLower) with
  | "nan" => some nan
  | "inf" | "infinity" => some infinity
  | _ => none

/-- A power of ten above which every number of single precision lies, and below whose inverse a
number rounds to zero. -/
def farExponent : Int := 60

/-- The word of the number nearest to the digits times a power of ten. A number that is far out of
range is settled by the place of its first digit. -/
def nearestWord (digits : Nat) (exponent : Int) : Word :=
  let place := (digitCount digits : Int) + exponent
  if digits = 0 ∨ place < -farExponent then 0
  else if farExponent < place then Word.infinity
  else
    Backend.Soft.toWord
      (Format.binary32.roundingRat Backend.Soft.nearest (digits * power exponent)).1

def toWord : Quantity → Word
  | nan => Word.canonicalNaN
  | infinity => Word.infinity
  | number digits exponent => nearestWord digits exponent

end Quantity

namespace Literal

def read (s : List Char) : Except LiteralError Literal :=
  if s = [] then .error .empty
  else
    let (sign, cs) := splitSign s
    match (Quantity.number? cs).or (Quantity.named? cs) with
    | some m => .ok ⟨sign, m⟩
    | none => .error .malformed

/-- The word of the literal; a minus sets the sign bit of a NaN too. -/
def toWord (l : Literal) : Word :=
  match l.sign with
  | .positive => l.quantity.toWord
  | .negative => l.quantity.toWord.negate

end Literal
end HartFloat.Decimal
