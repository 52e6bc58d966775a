import HartFloat.NumberClass

/-!
# Which operand a NaN result comes from

A propagation mode puts the operands of an operation into an order of preference. The payload is
taken from the first operand in that order that is a NaN; some modes look for a signaling NaN
first. The mode that always gives the canonical NaN prefers no operand at all.
-/
namespace HartFloat.NaN

/-- The first signaling NaN of the list if those are preferred and there is one, else its first
NaN. -/
def choose {α : Type} (preferSignaling : Bool) (classOf : α → NumberClass) (xs : List α) :
    Option α :=
  (if preferSignaling then xs.find? (fun x => (classOf x).isSignaling) else none).or
    (xs.find? (fun x => (classOf x).isNaN))

/-- How an operation with one operand propagates a NaN. -/
inductive UnaryMode
  | alwaysCanonical
  | first
  deriving DecidableEq

/-- How an operation with two operands propagates NaNs. -/
inductive BinaryMode
  | alwaysCanonical
  | firstSecond
  | secondFirst
  | firstSecondPreferringSNaN
  | secondFirstPreferringSNaN
  deriving DecidableEq

/-- How an operation with three operands propagates NaNs. -/
inductive TernaryMode
  | alwaysCanonical
  | firstSecondThird
  | firstThirdSecond
  | secondFirstThird
  | secondThirdFirst
  | thirdFirstSecond
  | thirdSecondFirst
  | firstSecondThirdPreferringSNaN
  | firstThirdSecondPreferringSNaN
  | secondFirstThirdPreferringSNaN
  | secondThirdFirstPreferringSNaN
  | thirdFirstSecondPreferringSNaN
  | thirdSecondFirstPreferringSNaN
  deriving DecidableEq

namespace UnaryMode

def all : List UnaryMode := [alwaysCanonical, first]

def name : UnaryMode → String
  | alwaysCanonical => "AlwaysCanonical"
  | first => "First"

/-- The operands in order of preference. -/
def arrange {α : Type} (mode : UnaryMode) (a : α) : List α :=
  match mode with
  | alwaysCanonical => []
  | first => [a]

/-- The operand whose payload the result takes, if any. -/
def select {α : Type} (mode : UnaryMode) (classOf : α → NumberClass) (a : α) : Option α :=
  choose false classOf (mode.arrange a)

end UnaryMode

namespace BinaryMode

def all : List BinaryMode :=
  [alwaysCanonical, firstSecond, secondFirst, firstSecondPreferringSNaN,
   secondFirstPreferringSNaN]

def name : BinaryMode → String
  | alwaysCanonical => "AlwaysCanonical"
  | firstSecond => "FirstSecond"
  | secondFirst => "SecondFirst"
  | firstSecondPreferringSNaN => "FirstSecondPreferringSNaN"
  | secondFirstPreferringSNaN => "SecondFirstPreferringSNaN"

def arrange {α : Type} (mode : BinaryMode) (a b : α) : List α :=
  match mode with
  | alwaysCanonical => []
  | firstSecond | firstSecondPreferringSNaN => [a, b]
  | secondFirst | secondFirstPreferringSNaN => [b, a]

def prefersSignaling : BinaryMode → Bool
  | firstSecondPreferringSNaN | secondFirstPreferringSNaN => true
  | _ => false

/-- The operand whose payload the result takes, if any. -/
def select {α : Type} (mode : BinaryMode) (classOf : α → NumberClass) (a b : α) : Option α :=
  choose mode.prefersSignaling classOf (mode.arrange a b)

/-- The mode for one operand that agrees on whether payloads are kept. -/
def toUnary : BinaryMode → UnaryMode
  | alwaysCanonical => .alwaysCanonical
  | _ => .first

end BinaryMode

namespace TernaryMode

def all : List TernaryMode :=
  [alwaysCanonical, firstSecondThird, firstThirdSecond, secondFirstThird, secondThirdFirst,
   thirdFirstSecond, thirdSecondFirst, firstSecondThirdPreferringSNaN,
   firstThirdSecondPreferringSNaN, secondFirstThirdPreferringSNaN,
   secondThirdFirstPreferringSNaN, thirdFirstSecondPreferringSNaN,
   thirdSecondFirstPreferringSNaN]

def name : TernaryMode → String
  | alwaysCanonical => "AlwaysCanonical"
  | firstSecondThird => "FirstSecondThird"
  | firstThirdSecond => "FirstThirdSecond"
  | secondFirstThird => "SecondFirstThird"
  | secondThirdFirst => "SecondThirdFirst"
  | thirdFirstSecond => "ThirdFirstSecond"
  | thirdSecondFirst => "ThirdSecondFirst"
  | firstSecondThirdPreferringSNaN => "FirstSecondThirdPreferringSNaN"
  | firstThirdSecondPreferringSNaN => "FirstThirdSecondPreferringSNaN"
  | secondFirstThirdPreferringSNaN => "SecondFirstThirdPreferringSNaN"
  | secondThirdFirstPreferringSNaN => "SecondThirdFirstPreferringSNaN"
  | thirdFirstSecondPreferringSNaN => "ThirdFirstSecondPreferringSNaN"
  | thirdSecondFirstPreferringSNaN => "ThirdSecondFirstPreferringSNaN"

def arrange {α : Type} (mode : TernaryMode) (a b c : α) : List α :=
  match mode with
  | alwaysCanonical => []
  | firstSecondThird | firstSecondThirdPreferringSNaN => [a, b, c]
  | firstThirdSecond | firstThirdSecondPreferringSNaN => [a, c, b]
  | secondFirstThird | secondFirstThirdPreferringSNaN => [b, a, c]
  | secondThirdFirst | secondThirdFirstPreferringSNaN => [b, c, a]
  | thirdFirstSecond | thirdFirstSecondPreferringSNaN => [c, a, b]
  | thirdSecondFirst | thirdSecondFirstPreferringSNaN => [c, b, a]

def prefersSignaling : TernaryMode → Bool
  | firstSecondThirdPreferringSNaN | firstThirdSecondPreferringSNaN
  | secondFirstThirdPreferringSNaN | secondThirdFirstPreferringSNaN
  | thirdFirstSecondPreferringSNaN | thirdSecondFirstPreferringSNaN => true
  | _ => false

/-- The operand whose payload the result takes, if any. -/
def select {α : Type} (mode : TernaryMode) (classOf : α → NumberClass) (a b c : α) : Option α :=
  choose mode.prefersSignaling classOf (mode.arrange a b c)

/-- The mode for two operands that keeps the order of the first two. -/
def toBinary : TernaryMode → BinaryMode
  | alwaysCanonical => .alwaysCanonical
  | firstSecondThird | firstThirdSecond | thirdFirstSecond => .firstSecond
  | secondFirstThird | secondThirdFirst | thirdSecondFirst => .secondFirst
  | firstSecondThirdPreferringSNaN | firstThirdSecondPreferringSNaN
  | thirdFirstSecondPreferringSNaN => .firstSecondPreferringSNaN
  | secondFirstThirdPreferringSNaN | secondThirdFirstPreferringSNaN
  | thirdSecondFirstPreferringSNaN => .secondFirstPreferringSNaN

end TernaryMode

/-- The letter of the selected operand, or `C` when the result is the canonical NaN. -/
def letter (selected : Option (Char × NumberClass)) : Char := (selected.map (·.1)).getD 'C'

/-- The operand selected for each class, by letter. -/
def UnaryMode.selectionTable (mode : UnaryMode) (classes : List NumberClass) : List Char :=
  classes.map fun a => letter (mode.select Prod.snd ('F', a))

/-- The operand selected for each pair of classes, by letter; the first class varies slowest. -/
def BinaryMode.selectionTable (mode : BinaryMode) (classes : List NumberClass) : List Char :=
  classes.flatMap fun a => classes.map fun b => letter (mode.select Prod.snd ('F', a) ('S', b))

/-- The operand selected for each triple of classes, by letter; the first class varies slowest. -/
def TernaryMode.selectionTable (mode : TernaryMode) (classes : List NumberClass) : List Char :=
  classes.flatMap fun a => classes.flatMap fun b => classes.map fun c =>
    letter (mode.select Prod.snd ('F', a) ('S', b) ('T', c))

end HartFloat.NaN
