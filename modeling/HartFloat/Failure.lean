import HartFloat.Registers.Layout

/-!
# Failures

Why the floating-point unit refuses a request, and the text of the refusal. A NaN is never a
failure.
-/
namespace HartFloat

inductive Failure
  | registerIndex (bank : Bank) (index : Nat)
  | operationIndex (index : Nat)
  | access (error : AccessError)
  | layout (error : LayoutError)
  deriving DecidableEq

namespace Failure

def message : Failure → String
  | registerIndex b i => b.name ++ " register index " ++ toString i ++ " out of range (0..32)"
  | operationIndex i => "dispatch index " ++ toString i ++ " out of range (0..24)"
  | access e => "register window access failed: " ++ e.message
  | layout e => "invalid memory map: " ++ e.message

end Failure
end HartFloat
