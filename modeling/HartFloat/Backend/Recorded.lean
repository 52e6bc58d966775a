import HartFloat.Backend.Primitives

/-!
# A recording backend

A backend that forwards every primitive to another one and writes the request down. The derived
comparisons reach it through the primitive ones, and it reports no exceptions of its own.
-/
namespace HartFloat

/-- A request to a backend, with the result where that is a float. -/
inductive Request
  | arithmetic (name : String) (a b result : Word)
  | comparison (name : String) (a b : Word)
  | toInteger (name : String) (a : Word)
  | ofInteger (name : String) (value : Int)
  deriving DecidableEq

def Request.text : Request → String
  | arithmetic name a b r =>
    name ++ " " ++ digits a ++ " " ++ digits b ++ " = " ++ digits r
  | comparison name a b => name ++ " " ++ digits a ++ " " ++ digits b
  | toInteger name a => name ++ " " ++ digits a
  | ofInteger name n => name ++ " " ++ toString n
where
  digits (w : Word) : String := Text.hex w.toNat 8

namespace Backend.Recorded

variable {σ : Type}

/-- Runs a primitive of the underlying backend and writes down the request. -/
def record {α : Type} (request : α → Request) (run : StateM σ α) :
    StateM (σ × List Request) α := fun s =>
  let (r, inner) := run s.1
  (r, (inner, s.2 ++ [request r]))

def primitives (P : Primitives σ) (name : String) : Primitives (σ × List Request) where
  name := name
  add a b := record (.arithmetic "add" a b) (P.add a b)
  sub a b := record (.arithmetic "sub" a b) (P.sub a b)
  mul a b := record (.arithmetic "mul" a b) (P.mul a b)
  div a b := record (.arithmetic "div" a b) (P.div a b)
  compareQuiet a b := record (fun _ => .comparison "compare_quiet" a b) (P.compareQuiet a b)
  compareSignaling a b :=
    record (fun _ => .comparison "compare_signaling" a b) (P.compareSignaling a b)
  toSigned a := record (fun _ => .toInteger "f32_to_i32" a) (P.toSigned a)
  toUnsigned a := record (fun _ => .toInteger "f32_to_u32" a) (P.toUnsigned a)
  ofSigned a := record (fun _ => .ofInteger "i32_to_f32" a.toInt) (P.ofSigned a)
  ofUnsigned a := record (fun _ => .ofInteger "u32_to_f32" a.toNat) (P.ofUnsigned a)

end Backend.Recorded
end HartFloat
