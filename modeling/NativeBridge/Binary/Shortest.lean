import NativeBridge.Binary.Format

/-! # Shortest decimal text

The text of a floating-point value has the fewest digits that still read back as the value, and of
those digits the ones nearest to it, a tie going upwards. The values that round to a given one lie
between the points half-way to its neighbours, which belong to them when its pattern is even. The
fewest digits belong to the coarsest grid of powers of ten with a point in that interval. Text is
positional throughout and has no point for whole values.
-/
namespace NativeBridge.Binary

/-- Bounds of the numbers that round to a value, and the value itself, all over one denominator. -/
structure Interval where
  low : Nat
  value : Nat
  high : Nat
  denominator : Nat
  closed : Bool

def intervalOf (f : Format) (pattern : Nat) : Interval :=
  let u := f.units pattern
  { low := u + f.units (pattern - 1), value := 2 * u, high := u + f.units (pattern + 1),
    denominator := Nat.pow 2 (f.scale + 1), closed := pattern % 2 = 0 }

namespace Interval

/-- The interval in multiples of a power of ten. -/
def overPower (i : Interval) (e : Int) : Interval :=
  if 0 ≤ e then { i with denominator := i.denominator * Nat.pow 10 e.toNat }
  else
    let p := Nat.pow 10 (-e).toNat
    { i with low := i.low * p, value := i.value * p, high := i.high * p }

def contains (i : Interval) (m : Nat) : Bool :=
  let x := m * i.denominator
  if i.closed then i.low ≤ x && x ≤ i.high else i.low < x && x < i.high

/-- The whole number in the interval that is nearest to the value. -/
def nearest? (i : Interval) : Option Nat :=
  let m := i.value / i.denominator
  let up := i.denominator ≤ 2 * (i.value % i.denominator)
  match i.contains m, i.contains (m + 1) with
  | true, true => some (if up then m + 1 else m)
  | true, false => some m
  | false, true => some (m + 1)
  | false, false => none

/-- Digits on the first grid that has them, going down from the power `e`. -/
def digitsFrom (i : Interval) : Nat → Int → Nat × Int
  | 0, e => (0, e)
  | turns + 1, e =>
    match (i.overPower e).nearest? with
    | some m => (m, e)
    | none => digitsFrom i turns (e - 1)

end Interval

/-- No finite value reaches this power of ten. -/
def greatestPower : Nat := 310

/-- More powers of ten than any format needs. -/
def powers : Nat := 1100

/-- The digits of a positive finite pattern as a number, and the power of ten they count. -/
def shortest (f : Format) (pattern : Nat) : Nat × Int :=
  (intervalOf f pattern).digitsFrom powers greatestPower

/-- `m` times a power of ten, written out. -/
def positional (m : Nat) (e : Int) : List Char :=
  let ds := Nat.toDigits 10 m
  if 0 ≤ e then ds ++ List.replicate e.toNat '0'
  else
    let places := (-e).toNat
    if places < ds.length then
      ds.take (ds.length - places) ++ '.' :: ds.drop (ds.length - places)
    else ['0', '.'] ++ List.replicate (places - ds.length) '0' ++ ds

def text (f : Format) (bits : Nat) : String :=
  match f.datum bits with
  | .nan => "NaN"
  | .infinite negative => if negative then "-inf" else "inf"
  | .finite negative units =>
    let magnitude :=
      if units = 0 then ['0']
      else
        let (m, e) := shortest f (bits % f.signBit)
        positional m e
    String.ofList (if negative then '-' :: magnitude else magnitude)

end NativeBridge.Binary
