import NativeBridge.Binary.Format
import NativeBridge.Text.Numeral

/-! # Decimal literals

A literal is an optional sign and then a word for infinity or for no number, in either case, or
digits with at most one point among them and an optional power of ten. Some digit must stand before
the power. The value is read as exactly as rounding it once needs.
-/
namespace NativeBridge.Binary

def isExponentMark (c : Char) : Bool := c == 'e' || c == 'E'

/-- A power is read digit by digit until it passes this; digits behind that change nothing. -/
def powerLimit : Nat := 0xffff

def appendPower : Nat → List Char → Option Nat
  | n, [] => some n
  | n, c :: cs =>
    match Text.digit? 10 c with
    | some d => appendPower (if n ≤ powerLimit then n * 10 + d else n) cs
    | none => none

def unsignedPower? : List Char → Option Nat
  | [] => none
  | cs => appendPower 0 cs

/-- A power of ten behind its mark; no text is the power zero. -/
def power? : List Char → Option Int
  | [] => some 0
  | c :: cs =>
    if isExponentMark c then
      match cs with
      | '-' :: cs => (unsignedPower? cs).map fun n => -(n : Int)
      | '+' :: cs => (unsignedPower? cs).map Int.ofNat
      | cs => (unsignedPower? cs).map Int.ofNat
    else none

/-- No middle between two neighbouring values has as many significant digits. -/
def significant : Nat := 800

/-- The number that digits make, and the power of ten behind it. Digits beyond the first significant
ones can only decide which side of a middle the number is on; they count as one digit, which is
zero if all of them are. -/
def mantissa (digits : List Char) : Nat × Nat :=
  let digits := digits.dropWhile (· == '0')
  let kept := (digits.take significant).foldl (fun n c => n * 10 + (Text.digitValue c).getD 0) 0
  match digits.drop significant with
  | [] => (kept, 0)
  | rest => (kept * 10 + if rest.all (· == '0') then 0 else 1, rest.length - 1)

/-- Digits without their point, the power of ten that the places behind it take away included. -/
def decimal? (cs : List Char) : Option (Nat × Int) :=
  let whole := cs.takeWhile Text.isDigit
  let rest := cs.dropWhile Text.isDigit
  let (places, rest) := match rest with
    | '.' :: rest => (rest.takeWhile Text.isDigit, rest.dropWhile Text.isDigit)
    | rest => ([], rest)
  if whole.isEmpty && places.isEmpty then none
  else
    let (m, left) := mantissa (whole ++ places)
    (power? rest).map fun e => (m, e - places.length + left)

/-- Beyond this power of ten every positive literal is infinite. -/
def hugePower : Int := 400

/-- Below this power of two every value rounds to zero. -/
def tinyPower : Int := -1100

/-- The pattern nearest to `m` times a power of ten. -/
def roundDecimal (f : Format) (m : Nat) (e : Int) : Nat :=
  if m = 0 then 0
  else if hugePower < e then f.infinity
  else if 0 ≤ e then roundRatio f (m * Nat.pow 10 e.toNat * f.one) 1
  else if (m.log2 : Int) + 1 + 3 * e < tinyPower then 0
  else roundRatio f (m * f.one) (Nat.pow 10 (-e).toNat)

def special? (f : Format) (cs : List Char) : Option Nat :=
  let word := String.ofList (cs.map Char.toLower)
  if word = "inf" ∨ word = "infinity" then some f.infinity
  else if word = "nan" then some f.quietNan
  else none

def unsignedLiteral? (f : Format) (cs : List Char) : Option Nat :=
  match decimal? cs with
  | some (m, e) => some (roundDecimal f m e)
  | none => special? f cs

/-- The bits of a literal. -/
def literal? (f : Format) : List Char → Option Nat
  | '-' :: cs => (unsignedLiteral? f cs).map (f.withSign true)
  | '+' :: cs => unsignedLiteral? f cs
  | cs => unsignedLiteral? f cs

end NativeBridge.Binary
