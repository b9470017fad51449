/-! # Binary floating-point formats

A format has a number of fraction bits and a number of exponent bits. Every finite value is a whole
number of units, the unit being the least positive value, so that values are exact natural numbers
and comparisons of distances are comparisons of those. Rounding takes an exact ratio of units to
the nearest value of the format, a tie to the one with an even pattern, and beyond the greatest
value to infinity.
-/
namespace NativeBridge.Binary

structure Format where
  fractionBits : Nat
  exponentBits : Nat
deriving DecidableEq

def single : Format := ⟨23, 8⟩
def double : Format := ⟨52, 11⟩

/-- What a pattern of bits stands for. -/
inductive Datum
  | finite (negative : Bool) (units : Nat)
  | infinite (negative : Bool)
  | nan
deriving DecidableEq

namespace Format

variable (f : Format)

/-- The number of patterns that share an exponent. -/
def fractions : Nat := Nat.pow 2 f.fractionBits

/-- The sign bit, which is the number of patterns of either sign. -/
def signBit : Nat := Nat.pow 2 (f.fractionBits + f.exponentBits)

/-- The pattern of positive infinity; greater patterns of that sign are not numbers. -/
def infinity : Nat := (Nat.pow 2 f.exponentBits - 1) * f.fractions

def quietNan : Nat := f.infinity + f.fractions / 2

/-- One is two to this power in units. -/
def scale : Nat := f.fractionBits + Nat.pow 2 (f.exponentBits - 1) - 2

/-- The units of one. -/
def one : Nat := Nat.pow 2 f.scale

/-- The units of a pattern without sign, with infinity read as the value after the greatest. -/
def units (pattern : Nat) : Nat :=
  let exponent := pattern / f.fractions
  let fraction := pattern % f.fractions
  if exponent = 0 then fraction else (f.fractions + fraction) * Nat.pow 2 (exponent - 1)

def isNegative (bits : Nat) : Bool := f.signBit ≤ bits

def datum (bits : Nat) : Datum :=
  let pattern := bits % f.signBit
  if f.infinity < pattern then .nan
  else if pattern = f.infinity then .infinite (f.isNegative bits)
  else .finite (f.isNegative bits) (f.units pattern)

def withSign (negative : Bool) (pattern : Nat) : Nat :=
  if negative then f.signBit + pattern else pattern

end Format

/-- A quotient rounded to the nearest whole number, a tie to the even one. -/
def nearestEven (num den : Nat) : Nat :=
  let q := num / den
  let twice := 2 * (num % den)
  if twice < den then q else if den < twice then q + 1 else q + q % 2

/-- The pattern of the value nearest to `num / den` units. The spacing of values doubles with every
power of two above the least ones, and a carry out of the fraction moves the exponent by itself. -/
def roundRatio (f : Format) (num den : Nat) : Nat :=
  let shift := (num / den).log2 - f.fractionBits
  min (shift * f.fractions + nearestEven num (den * Nat.pow 2 shift)) f.infinity

/-- The bits of an integer in a format. -/
def ofInt (f : Format) (z : Int) : Nat :=
  f.withSign (z < 0) (roundRatio f (z.natAbs * f.one) 1)

/-- The same value in another format, rounded if it has to be. -/
def convert (f g : Format) (bits : Nat) : Nat :=
  if f = g then bits
  else match f.datum bits with
    | .nan => g.quietNan
    | .infinite negative => g.withSign negative g.infinity
    | .finite negative units =>
      g.withSign negative (roundRatio g (units * g.one) f.one)

/-- The greatest and least numbers of a signed 128-bit word. -/
def wideMax : Int := (Nat.pow 2 127 : Nat) - 1
def wideMin : Int := -(Nat.pow 2 127 : Nat)

/-- The integer part, kept within a signed 128-bit word; zero where there is no number. -/
def truncate (f : Format) (bits : Nat) : Int :=
  match f.datum bits with
  | .nan => 0
  | .infinite negative => if negative then wideMin else wideMax
  | .finite negative units =>
    let whole : Int := (units / f.one : Nat)
    max wideMin (min wideMax (if negative then -whole else whole))

end NativeBridge.Binary
