/-! # Numerals

Unsigned and signed numerals in a base, read exactly: a numeral has at least one digit and nothing
but digits after its sign. Its length has no limit but its value does, and reading ends as soon as
the value passes it.
-/
namespace NativeBridge.Text

/-- The value of a digit, with letters of either case from ten on. -/
def digitValue (c : Char) : Option Nat :=
  if '0' ≤ c ∧ c ≤ '9' then some (c.toNat - '0'.toNat)
  else if 'a' ≤ c ∧ c ≤ 'z' then some (c.toNat - 'a'.toNat + 10)
  else if 'A' ≤ c ∧ c ≤ 'Z' then some (c.toNat - 'A'.toNat + 10)
  else none

def digit? (base : Nat) (c : Char) : Option Nat := (digitValue c).filter (· < base)

def isDigit (c : Char) : Bool := (digit? 10 c).isSome

/-- Reads `cs` as further digits of a number that stands at `n` and may not pass `limit`. -/
def appendDigits (base limit : Nat) : Nat → List Char → Option Nat
  | n, [] => some n
  | n, c :: cs =>
    match digit? base c with
    | some d =>
      if n * base + d ≤ limit then appendDigits base limit (n * base + d) cs else none
    | none => none

/-- A numeral without a sign. -/
def unsigned? (base limit : Nat) : List Char → Option Nat
  | [] => none
  | cs => appendDigits base limit 0 cs

/-- A numeral that may carry a plus sign. -/
def positive? (base limit : Nat) : List Char → Option Nat
  | '+' :: cs => unsigned? base limit cs
  | cs => unsigned? base limit cs

/-- A numeral that may carry either sign, from `-below` to `limit`. -/
def signed? (base below limit : Nat) : List Char → Option Int
  | '-' :: cs => (unsigned? base below cs).map fun n => -(n : Int)
  | cs => (positive? base limit cs).map Int.ofNat

end NativeBridge.Text
