import HartFloat.Decimal.Literal
import HartFloat.Registers.Layout
import HartFloat.Text.Numeral

/-!
# Operands on the command line

A word is written in hexadecimal. The value of a float register is a decimal literal, or its bits
after the base mark; the value of an integer register is a decimal integer, or its bits after the
base mark.
-/
namespace HartFloat.CommandLine

inductive OperandError
  | bits (text : String) (cause : Text.NumeralError)
  | literal (text : String) (cause : Decimal.LiteralError)
  | integer (text : String) (cause : Text.NumeralError)
  | range (text : String)
  | instruction (text : String) (cause : Text.NumeralError)
  deriving DecidableEq

namespace OperandError

/-- A text that is refused, and the reason. -/
def refusal (what text reason : String) : String :=
  "bad " ++ what ++ " '" ++ text ++ "': " ++ reason

def message : OperandError → String
  | bits s e => refusal "bit pattern" s e.message
  | literal s e => refusal "float" s e.message
  | integer s e => refusal "integer" s e.message
  | range s => "integer '" ++ s ++ "' does not fit in 32 bits"
  | instruction s e => refusal "instruction word" s e.message

end OperandError

namespace Operand

/-- Reads a word from its digits in base sixteen. -/
def readWord (s : List Char) : Except Text.NumeralError Word :=
  ((Text.Numeral.unsigned 16 32).read s).map (BitVec.ofInt 32)

/-- Reads an instruction word. The base mark may be left out. -/
def readInstruction (s : String) : Except OperandError Word :=
  (readWord ((Text.afterBaseMark? s.toList).getD s.toList)).mapError (.instruction s)

def readFloat (s : String) : Except OperandError Word :=
  match Text.afterBaseMark? s.toList with
  | some digits => (readWord digits).mapError (.bits s)
  | none => ((Decimal.Literal.read s.toList).map (·.toWord)).mapError (.literal s)

/-- Reads the value of an integer register: an integer that some word stands for, taken as signed
or as unsigned. -/
def readInteger (s : String) : Except OperandError Word :=
  match Text.afterBaseMark? s.toList with
  | some digits => (readWord digits).mapError (.integer s)
  | none => do
    let n ← ((Text.Numeral.signed 10 64).read s.toList).mapError (OperandError.integer s)
    if -0x80000000 ≤ n ∧ n < 0x100000000 then return BitVec.ofInt 32 n else throw (.range s)

/-- Reads the value of a register of the given bank. -/
def read : Bank → String → Except OperandError Word
  | .float => readFloat
  | .integer => readInteger

end Operand
end HartFloat.CommandLine
