import HartFloat.Failure
import HartFloat.Text.Blank

/-!
# The single-precision operations

The 24 computational operations of the single-precision extension in the order of their dispatch
indexes, their shapes, their names, and the operands they are given.
-/
namespace HartFloat

/-- The operations, in the order of their indexes. -/
inductive Operation
  | fadd | fsub | fmul | fdiv | fsqrt
  | fmin | fmax
  | fmadd | fmsub | fnmadd | fnmsub
  | fsgnj | fsgnjn | fsgnjx
  | feq | flt | fle
  | fcvtWS | fcvtWuS | fcvtSW | fcvtSWu
  | fmvXW | fmvWX | fclass
  deriving DecidableEq

namespace Operation

abbrev count : Nat := 24

def all : List Operation :=
  [fadd, fsub, fmul, fdiv, fsqrt, fmin, fmax, fmadd, fmsub, fnmadd, fnmsub, fsgnj, fsgnjn, fsgnjx,
   feq, flt, fle, fcvtWS, fcvtWuS, fcvtSW, fcvtSWu, fmvXW, fmvWX, fclass]

def index : Operation → Fin count
  | fadd => 0 | fsub => 1 | fmul => 2 | fdiv => 3 | fsqrt => 4
  | fmin => 5 | fmax => 6
  | fmadd => 7 | fmsub => 8 | fnmadd => 9 | fnmsub => 10
  | fsgnj => 11 | fsgnjn => 12 | fsgnjx => 13
  | feq => 14 | flt => 15 | fle => 16
  | fcvtWS => 17 | fcvtWuS => 18 | fcvtSW => 19 | fcvtSWu => 20
  | fmvXW => 21 | fmvWX => 22 | fclass => 23

def ofIndex (i : Nat) : Except Failure Operation :=
  match all[i]? with
  | some op => .ok op
  | none => .error (.operationIndex i)

def mnemonic : Operation → String
  | fadd => "fadd.s" | fsub => "fsub.s" | fmul => "fmul.s" | fdiv => "fdiv.s" | fsqrt => "fsqrt.s"
  | fmin => "fmin.s" | fmax => "fmax.s"
  | fmadd => "fmadd.s" | fmsub => "fmsub.s" | fnmadd => "fnmadd.s" | fnmsub => "fnmsub.s"
  | fsgnj => "fsgnj.s" | fsgnjn => "fsgnjn.s" | fsgnjx => "fsgnjx.s"
  | feq => "feq.s" | flt => "flt.s" | fle => "fle.s"
  | fcvtWS => "fcvt.w.s" | fcvtWuS => "fcvt.wu.s" | fcvtSW => "fcvt.s.w" | fcvtSWu => "fcvt.s.wu"
  | fmvXW => "fmv.x.w" | fmvWX => "fmv.w.x" | fclass => "fclass.s"

def label : Operation → String
  | fadd => "FaddS" | fsub => "FsubS" | fmul => "FmulS" | fdiv => "FdivS" | fsqrt => "FsqrtS"
  | fmin => "FminS" | fmax => "FmaxS"
  | fmadd => "FmaddS" | fmsub => "FmsubS" | fnmadd => "FnmaddS" | fnmsub => "FnmsubS"
  | fsgnj => "FsgnjS" | fsgnjn => "FsgnjnS" | fsgnjx => "FsgnjxS"
  | feq => "FeqS" | flt => "FltS" | fle => "FleS"
  | fcvtWS => "FcvtWS" | fcvtWuS => "FcvtWuS" | fcvtSW => "FcvtSW" | fcvtSWu => "FcvtSWu"
  | fmvXW => "FmvXW" | fmvWX => "FmvWX" | fclass => "FclassS"

/-- Whether the result goes to the return register instead of a float register. -/
def writesReturn : Operation → Bool
  | feq | flt | fle | fcvtWS | fcvtWuS | fmvXW | fclass => true
  | _ => false

/-- Whether the source is an integer register. -/
def readsInteger : Operation → Bool
  | fcvtSW | fcvtSWu | fmvWX => true
  | _ => false

def sourceCount : Operation → Nat
  | fmadd | fmsub | fnmadd | fnmsub => 3
  | fsqrt | fcvtWS | fcvtWuS | fcvtSW | fcvtSWu | fmvXW | fmvWX | fclass => 1
  | _ => 2

def sourceBank (op : Operation) : Bank := if op.readsInteger then .integer else .float

/-- The operation with the given name. Case does not matter, nor do blanks around the name, and
the ending that marks single precision may be left out. -/
def ofName? (s : String) : Option Operation :=
  let name := Text.lower (Text.trim s.toList)
  all.find? fun op =>
    let m := op.mnemonic.toList
    m == name || Text.dropEnding? ".s".toList m == some name

def unknownName (s : String) : String := "unknown RV32F operation '" ++ s ++ "'"

@[simp] theorem all_length : all.length = count := rfl

@[simp] theorem getElem_index (op : Operation) : all[op.index.val]? = some op := by
  cases op <;> rfl

@[simp] theorem ofIndex_index (op : Operation) : ofIndex op.index = .ok op := by
  simp [ofIndex]

end Operation

/-- The register that comparisons, conversions to integers, moves to integers and the classify
instruction write their result to. -/
def returnRegister : Nat := 10

/-- The operand fields of an instruction. An operation ignores the fields it has no use for, and
all of them ignore the rounding field. -/
structure Operands where
  rs1 : Nat := 0
  rs2 : Nat := 0
  rs3 : Nat := 0
  rd : Nat := 0
  rm : Nat := 0
  deriving DecidableEq, Inhabited

/-- The name of a rounding field. Only the low three bits count, and the codes without a meaning
of their own are read as the dynamic mode. -/
def roundingFieldName (rm : Nat) : String :=
  match rm % 8 with
  | 0 => "rne"
  | 1 => "rtz"
  | 2 => "rdn"
  | 3 => "rup"
  | 4 => "rmm"
  | _ => "dyn"

namespace Operands

def modeName (o : Operands) : String := roundingFieldName o.rm

end Operands

namespace Operation

def destination (op : Operation) (o : Operands) : Bank × Nat :=
  if op.writesReturn then (.integer, returnRegister) else (.float, o.rd)

end Operation
end HartFloat
