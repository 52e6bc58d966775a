import HartFloat.Word

/-!
# Fields of an instruction word

The opcode, register numbers and selectors of a 32-bit instruction, and the opcodes of the
floating-point instructions.
-/
namespace HartFloat.Word

/-- The number in the `length` bits from bit `start` on. -/
def bits (w : Word) (start length : Nat) : Nat := (w.extractLsb' start length).toNat

def opcode (w : Word) : Nat := w.bits 0 7

def rd (w : Word) : Nat := w.bits 7 5

def funct3 (w : Word) : Nat := w.bits 12 3

/-- The rounding field, which lies where other instructions select a function. -/
def rm (w : Word) : Nat := w.funct3

def rs1 (w : Word) : Nat := w.bits 15 5

def rs2 (w : Word) : Nat := w.bits 20 5

/-- The precision; zero is single. -/
def fmt (w : Word) : Nat := w.bits 25 2

def rs3 (w : Word) : Nat := w.bits 27 5

def funct7 (w : Word) : Nat := w.bits 25 7

end HartFloat.Word

namespace HartFloat.Opcode

def loadFloat : Nat := 0b0000111

def storeFloat : Nat := 0b0100111

def madd : Nat := 0b1000011

def msub : Nat := 0b1000111

def nmsub : Nat := 0b1001011

def nmadd : Nat := 0b1001111

def arithmetic : Nat := 0b1010011

def computational : List Nat := [madd, msub, nmsub, nmadd, arithmetic]

def isFloat (w : Word) : Bool :=
  w.opcode == loadFloat || w.opcode == storeFloat || computational.contains w.opcode

end HartFloat.Opcode
