import HartFloat.Instruction.Decoder

/-!
# The instruction table of the extension

The 24 computational instructions. Each is recognised by its opcode together with a precision or a
function code, and where these are shared by a third selector or a fixed second source. Loads and
stores are left to the integer core and have no entry.
-/
namespace HartFloat.Instruction

def fusedMask : Word := 0x0600007f

def binaryMask : Word := 0xfe00007f

def selectedMask : Word := 0xfe00707f

def unaryMask : Word := 0xfff0007f

def selectedUnaryMask : Word := 0xfff0707f

def pattern (funct7 rs2 funct3 opcode : Nat) : Word :=
  BitVec.ofNat 7 funct7 ++ BitVec.ofNat 5 rs2 ++ 0#5 ++ BitVec.ofNat 3 funct3 ++ 0#5
    ++ BitVec.ofNat 7 opcode

def fusedOperands (w : Word) : Operands :=
  { rs1 := w.rs1, rs2 := w.rs2, rs3 := w.rs3, rd := w.rd, rm := w.rm }

def binaryOperands (w : Word) : Operands :=
  { rs1 := w.rs1, rs2 := w.rs2, rd := w.rd, rm := w.rm }

def selectedOperands (w : Word) : Operands := { rs1 := w.rs1, rs2 := w.rs2, rd := w.rd }

def unaryOperands (w : Word) : Operands := { rs1 := w.rs1, rd := w.rd, rm := w.rm }

def selectedUnaryOperands (w : Word) : Operands := { rs1 := w.rs1, rd := w.rd }

/-- A fused operation: three sources and a rounding field. -/
def fused (name : String) (opcode : Nat) (op : Operation) : Definition :=
  ⟨name, fusedMask, pattern 0 0 0 opcode, op, fusedOperands⟩

/-- An operation with two sources and a rounding field. -/
def binary (name : String) (funct7 : Nat) (op : Operation) : Definition :=
  ⟨name, binaryMask, pattern funct7 0 0 Opcode.arithmetic, op, binaryOperands⟩

/-- An operation with two sources and a selector. -/
def selected (name : String) (funct7 funct3 : Nat) (op : Operation) : Definition :=
  ⟨name, selectedMask, pattern funct7 0 funct3 Opcode.arithmetic, op, selectedOperands⟩

/-- An operation with one source and a rounding field. -/
def unary (name : String) (funct7 rs2 : Nat) (op : Operation) : Definition :=
  ⟨name, unaryMask, pattern funct7 rs2 0 Opcode.arithmetic, op, unaryOperands⟩

/-- An operation with one source and a selector. -/
def selectedUnary (name : String) (funct7 funct3 : Nat) (op : Operation) : Definition :=
  ⟨name, selectedUnaryMask, pattern funct7 0 funct3 Opcode.arithmetic, op, selectedUnaryOperands⟩

/-- The entries in the order of the operations. -/
def table : List Definition :=
  [binary "FADD.S" 0b0000000 .fadd,
   binary "FSUB.S" 0b0000100 .fsub,
   binary "FMUL.S" 0b0001000 .fmul,
   binary "FDIV.S" 0b0001100 .fdiv,
   unary "FSQRT.S" 0b0101100 0 .fsqrt,
   selected "FMIN.S" 0b0010100 0 .fmin,
   selected "FMAX.S" 0b0010100 1 .fmax,
   fused "FMADD.S" Opcode.madd .fmadd,
   fused "FMSUB.S" Opcode.msub .fmsub,
   fused "FNMADD.S" Opcode.nmadd .fnmadd,
   fused "FNMSUB.S" Opcode.nmsub .fnmsub,
   selected "FSGNJ.S" 0b0010000 0 .fsgnj,
   selected "FSGNJN.S" 0b0010000 1 .fsgnjn,
   selected "FSGNJX.S" 0b0010000 2 .fsgnjx,
   selected "FEQ.S" 0b1010000 2 .feq,
   selected "FLT.S" 0b1010000 1 .flt,
   selected "FLE.S" 0b1010000 0 .fle,
   unary "FCVT.W.S" 0b1100000 0 .fcvtWS,
   unary "FCVT.WU.S" 0b1100000 1 .fcvtWuS,
   unary "FCVT.S.W" 0b1101000 0 .fcvtSW,
   unary "FCVT.S.WU" 0b1101000 1 .fcvtSWu,
   selectedUnary "FMV.X.W" 0b1110000 0 .fmvXW,
   selectedUnary "FMV.W.X" 0b1111000 0 .fmvWX,
   selectedUnary "FCLASS.S" 0b1110000 1 .fclass]

def decoder : Decoder := ⟨"RV32F", table⟩

def decode (w : Word) : Option Decoded := decoder.decode w

end HartFloat.Instruction
