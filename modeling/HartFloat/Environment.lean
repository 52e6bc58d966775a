import HartFloat.Pattern.Compare
import HartFloat.Pattern.Convert
import HartFloat.Pattern.Integer
import HartFloat.Pattern.Neighbour
import HartFloat.Pattern.Roots

/-!
# Operations in an environment

An operation that is run in an environment rounds as the environment says, unless a direction is
given for it alone, and leaves its exceptions in the environment. A carried pattern brings its own
environment along; operations on several of them first merge the environments.
-/
namespace HartFloat

namespace Environment

variable {α : Type}

def run (env : Environment) (mode? : Option RoundingMode) (op : Context → Outcome α) :
    Except Violation (α × Environment) :=
  (op (env.toContext.override mode?)).map fun r => (r.1, env.raise r.2)

def eval (env : Environment) (mode? : Option RoundingMode) (op : Context → α × Flags) :
    α × Environment :=
  let r := op (env.toContext.override mode?)
  (r.1, env.raise r.2)

end Environment

/-- A pattern together with the environment it was computed in. -/
structure Carried (F : Format) where
  environment : Environment
  pattern : Pattern F

namespace Carried

variable {F : Format} {α : Type}

def ofBits? (F : Format) (bits : Nat) : Option (Carried F) :=
  (Pattern.ofBits? F bits).map (⟨default, ·⟩)

/-- The environment of two operands, if theirs agree. -/
def merge₂ (x y : Carried F) : Option Environment := x.environment.merge? y.environment

/-- The environment of three operands, if theirs agree. -/
def merge₃ (x y z : Carried F) : Option Environment :=
  (x.merge₂ y).bind (·.merge? z.environment)

def apply₁ (x : Carried F) (mode? : Option RoundingMode)
    (op : Context → Pattern F → Outcome α) : Except Violation (α × Environment) :=
  x.environment.run mode? fun c => op c x.pattern

/-- Runs an operation on two operands in their common environment, if they have one. -/
def apply₂? (x y : Carried F) (mode? : Option RoundingMode)
    (op : Context → Pattern F → Pattern F → Outcome α) :
    Option (Except Violation (α × Environment)) :=
  (x.merge₂ y).map fun env => env.run mode? fun c => op c x.pattern y.pattern

def apply₃? (x y z : Carried F) (mode? : Option RoundingMode)
    (op : Context → Pattern F → Pattern F → Pattern F → Outcome α) :
    Option (Except Violation (α × Environment)) :=
  (x.merge₃ y z).map fun env => env.run mode? fun c => op c x.pattern y.pattern z.pattern

/-- Operands that do not agree on an environment break a demand of the unchecked operations. -/
def unchecked (r : Option (Except Violation (α × Environment))) :
    Except Violation (α × Environment) :=
  r.getD (.error .environmentsDisagree)

end Carried
end HartFloat
