import HartFloat.Instruction.Fields
import HartFloat.Operation

/-!
# Table-driven decoding

A definition matches a word when the bits under its mask have its pattern. A decoder takes the
first definition of its table that matches. Two definitions are reported as a conflict when their
patterns agree on the bits that both masks cover.
-/
namespace HartFloat

structure Decoded where
  raw : Word
  operation : Operation
  operands : Operands
  deriving DecidableEq

namespace Decoded

def text (d : Decoded) : String :=
  let op := d.operation
  let o := d.operands
  let f (n : Nat) := "f" ++ toString n
  let x (n : Nat) := "x" ++ toString n
  let target := if op.writesReturn then x o.rd else f o.rd
  let sources :=
    match op.sourceCount with
    | 3 => [f o.rs1, f o.rs2, f o.rs3]
    | 1 => [if op.readsInteger then x o.rs1 else f o.rs1]
    | _ => [f o.rs1, f o.rs2]
  op.mnemonic ++ " " ++ ", ".intercalate (target :: sources)

def modeName (d : Decoded) : String := d.operands.modeName

end Decoded

structure Definition where
  name : String
  mask : Word
  pattern : Word
  operation : Operation
  operands : Word → Operands

namespace Definition

def isMatch (d : Definition) (w : Word) : Bool := w &&& d.mask == d.pattern

def decode (d : Definition) (w : Word) : Decoded := ⟨w, d.operation, d.operands w⟩

/-- Whether the two patterns agree where both masks look. -/
def conflictsWith (a b : Definition) : Bool :=
  a.pattern &&& (a.mask &&& b.mask) == b.pattern &&& (a.mask &&& b.mask)

def describe (d : Definition) : String :=
  Text.record "InstrDef"
    [("name", Text.quoted d.name), ("mask", "0x" ++ Text.hexUpper d.mask.toNat 8),
     ("match_val", "0x" ++ Text.hexUpper d.pattern.toNat 8), ("op", d.operation.label)]

end Definition

/-- Two definitions that may match the same word, and such a word. -/
structure Conflict where
  first : String
  second : String
  sample : Word
  deriving DecidableEq

def Conflict.text (c : Conflict) : String :=
  "冲突: " ++ c.first ++ " 与 " ++ c.second ++ " (示例: 0x" ++ Text.hexUpper c.sample.toNat 8 ++ ")"

structure Decoder where
  name : String
  definitions : List Definition

namespace Decoder

def decode (d : Decoder) (w : Word) : Option Decoded :=
  (d.definitions.find? (·.isMatch w)).map (·.decode w)

def conflictsAfter (a : Definition) (rest : List Definition) : List Conflict :=
  (rest.filter a.conflictsWith).map fun b =>
    ⟨a.name, b.name, (a.pattern &&& a.mask) ||| (b.pattern &&& b.mask)⟩

/-- The conflicts of a table, in the order of their first and then their second definition. -/
def conflictsIn : List Definition → List Conflict
  | [] => []
  | a :: rest => conflictsAfter a rest ++ conflictsIn rest

def conflicts (d : Decoder) : List Conflict := conflictsIn d.definitions

def describe (d : Decoder) : String :=
  Text.record "TableDrivenDecoder"
    [("name", Text.quoted d.name), ("instrs", toString d.definitions.length)]

end Decoder
end HartFloat
