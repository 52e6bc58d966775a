import HartFloat.Failure

/-!
# The register file

Two banks of 32 registers, each kept in its window of the address space. A register number is
checked before the memory is touched.
-/
namespace HartFloat

structure RegisterFile where
  layout : Layout
  floatWindow : Window
  integerWindow : Window

namespace RegisterFile

/-- Registers that hold zeros, without a check of the layout. -/
def allocate (l : Layout) : RegisterFile where
  layout := l
  floatWindow := Window.empty (l.windowSize .float) (l.base .float)
  integerWindow := Window.empty (l.windowSize .integer) (l.base .integer)

/-- Registers that hold zeros, in an acceptable layout. -/
def create (l : Layout) : Except Failure RegisterFile :=
  match l.validate with
  | .ok () => .ok (allocate l)
  | .error e => .error (.layout e)

def window (r : RegisterFile) : Bank → Window
  | .float => r.floatWindow
  | .integer => r.integerWindow

def withWindow (r : RegisterFile) (b : Bank) (w : Window) : RegisterFile :=
  match b with
  | .float => { r with floatWindow := w }
  | .integer => { r with integerWindow := w }

def read (r : RegisterFile) (b : Bank) (i : Nat) : Except Failure Word :=
  if i < registerCount then
    ((r.window b).load (r.layout.address b i)).mapError .access
  else .error (.registerIndex b i)

def write (r : RegisterFile) (b : Bank) (i : Nat) (w : Word) : Except Failure RegisterFile :=
  if i < registerCount then
    (((r.window b).store (r.layout.address b i) w).map (r.withWindow b)).mapError .access
  else .error (.registerIndex b i)

def reset (r : RegisterFile) : RegisterFile :=
  { r with floatWindow := r.floatWindow.clear, integerWindow := r.integerWindow.clear }

end RegisterFile
end HartFloat
