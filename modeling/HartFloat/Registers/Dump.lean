import HartFloat.Backend.Soft
import HartFloat.Decimal.Shortest
import HartFloat.Registers.File

/-!
# Register listings

All registers in two tables. Float registers are shown two on a line, each with its bits and its
value; integer registers four on a line.
-/
namespace HartFloat

/-- The value of a word as a single-precision number, in scientific notation. -/
def Word.scientific (w : Word) : String := Decimal.ofPattern (Backend.Soft.ofWord w)

namespace RegisterFile

/-- The words of a bank in order; a register that cannot be read makes the listing fail. -/
def words (r : RegisterFile) (b : Bank) : Except Failure (List Word) :=
  (List.range registerCount).mapM (r.read b)

/-- Joins entries to lines of the given length, two blanks between entries. -/
def lines (perLine : Nat) (entries : List String) : String :=
  String.join <| entries.mapIdx fun i e => e ++ (if (i + 1) % perLine = 0 then "\n" else "  ")

def entry (bank : String) (i : Nat) (w : Word) : String :=
  bank ++ Text.padRight 2 (toString i) ++ ": " ++ w.hex

def floatEntry (i : Nat) (w : Word) : String :=
  entry "f" i w ++ " (" ++ Text.alignRight 14 w.scientific ++ ")"

def listing (r : RegisterFile) : Except Failure String := do
  let floats ← r.words .float
  let integers ← r.words .integer
  return "─── Float Registers (f0-f31) ──────────────────────────────────\n"
    ++ lines 2 (floats.mapIdx floatEntry)
    ++ "─── Integer Registers (x0-x31) ────────────────────────────────\n"
    ++ lines 4 (integers.mapIdx (entry "x"))

end RegisterFile
end HartFloat
