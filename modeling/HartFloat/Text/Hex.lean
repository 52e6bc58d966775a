import HartFloat.Power

/-!
# Hexadecimal numerals

Writing a number in base sixteen with at least a given number of digits, and reading digits back.
-/
namespace HartFloat.Text

def hexDigits (n : Nat) : List Char := Nat.toDigits 16 n

/-- Pads a text on the left to the given length. -/
def padLeft (c : Char) (length : Nat) (s : List Char) : List Char :=
  List.replicate (length - s.length) c ++ s

/-- Pads a text with blanks on the right to the given length. -/
def padRight (length : Nat) (s : String) : String :=
  s ++ String.ofList (List.replicate (length - s.length) ' ')

/-- Pads a text with blanks on the left to the given length. -/
def alignRight (length : Nat) (s : String) : String :=
  String.ofList (padLeft ' ' length s.toList)

/-- The number in lower case with at least the given number of digits. -/
def hex (n : Nat) (digits : Nat := 1) : String :=
  String.ofList (padLeft '0' digits (hexDigits n))

/-- The number in upper case with at least the given number of digits. -/
def hexUpper (n : Nat) (digits : Nat := 1) : String :=
  String.ofList (padLeft '0' digits ((hexDigits n).map Char.toUpper))

/-- The number with its base mark, in lower case. -/
def hexMarked (n : Nat) (digits : Nat := 1) : String := "0x" ++ hex n digits

/-- The value of a digit in base sixteen. -/
def hexValue? (c : Char) : Option Nat :=
  if '0' ≤ c ∧ c ≤ '9' then some (c.toNat - '0'.toNat)
  else if 'a' ≤ c ∧ c ≤ 'f' then some (c.toNat - 'a'.toNat + 10)
  else if 'A' ≤ c ∧ c ≤ 'F' then some (c.toNat - 'A'.toNat + 10)
  else none

def isControl (c : Char) : Bool := c.toNat < 0x20 || (0x7f ≤ c.toNat && c.toNat < 0xa0)

/-- A character as it stands in a quoted text. Control characters without an escape of their own
are given by their code point. -/
def escaped (c : Char) : String :=
  match c with
  | '"' => "\\\""
  | '\\' => "\\\\"
  | '\n' => "\\n"
  | '\r' => "\\r"
  | '\t' => "\\t"
  | '\x00' => "\\0"
  | c => if isControl c then "\\u\x7b" ++ hex c.toNat ++ "\x7d" else c.toString

/-- Makes a text usable inside a text: it is put between quotes, and its quotes, backslashes and
control characters are escaped. -/
def quoted (s : String) : String := "\"" ++ String.join (s.toList.map escaped) ++ "\""

def record (name : String) (fields : List (String × String)) : String :=
  name ++ " \x7b " ++ ", ".intercalate (fields.map fun f => f.1 ++ ": " ++ f.2) ++ " \x7d"

def truth (b : Bool) : String := if b then "true" else "false"

end HartFloat.Text
