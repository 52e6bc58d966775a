import HartFloat.Text.Blank

/-!
# The choice of a backend

The two arithmetic backends that can be asked for by name.
-/
namespace HartFloat

inductive Backend
  | soft
  | host
  deriving DecidableEq

namespace Backend

def name : Backend → String
  | soft => "soft"
  | host => "host"

def ofName? (s : String) : Option Backend :=
  match String.ofList (Text.lower s.toList) with
  | "soft" | "softfloat" => some soft
  | "host" | "native" => some host
  | _ => none

/-- The text for a name that no backend has. -/
def unknownName (s : String) : String :=
  "unknown backend '" ++ String.ofList (Text.lower s.toList) ++ "', expected soft or host"

end Backend
end HartFloat
