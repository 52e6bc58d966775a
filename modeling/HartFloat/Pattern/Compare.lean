import HartFloat.Pattern.Arithmetic

/-!
# Comparison

Patterns are compared by value, with the infinities at the ends; the two zeros are equal and a NaN
is unordered to everything.
-/
namespace HartFloat.Pattern

variable {F : Format}

/-- How two fractions compare. -/
def compareRat (p q : Rat) : Ordering := if p < q then .lt else if p = q then .eq else .gt

/-- How two patterns that are not NaNs compare. -/
def order (x y : Pattern F) : Except Violation Ordering :=
  if x.isInfinity || y.isInfinity then
    if x.classify = y.classify then .ok .eq
    else if x.classify == .positiveInfinity || y.classify == .negativeInfinity then .ok .gt
    else .ok .lt
  else x.ratio.bind fun a => y.ratio.map fun b => compareRat a b

/-- How two patterns compare; nothing if they are unordered. Unordered operands make a comparison
invalid, but a quiet one only if one of them is a signaling NaN. -/
def compare (quiet : Bool) (x y : Pattern F) : Outcome (Option Ordering) :=
  if x.isNaN || y.isNaN then
    .ok (none, Flags.when (!quiet || x.isSignaling || y.isSignaling) Flags.nv)
  else (x.order y).map fun o => (some o, ∅)

def compareQuiet (x y : Pattern F) : Outcome (Option Ordering) := compare true x y

def compareSignaling (x y : Pattern F) : Outcome (Option Ordering) := compare false x y

end HartFloat.Pattern
