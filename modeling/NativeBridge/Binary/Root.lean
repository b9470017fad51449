import NativeBridge.Binary.Format

/-! # Roots, whole parts and magnitudes

The square root of a value is rounded once. It is found in units as the root of a whole number, with
one bit more that tells whether something remains, far below the place where rounding looks. Whole
parts and magnitudes are exact.
-/
namespace NativeBridge.Binary

/-- The greatest number whose square does not exceed `n`. -/
def wholeRoot (n : Nat) : Nat :=
  if n = 0 then 0
  else
    let r := 2 * wholeRoot (n / 4)
    if (r + 1) * (r + 1) ≤ n then r + 1 else r
termination_by n

def root (f : Format) (bits : Nat) : Nat :=
  match f.datum bits with
  | .nan => f.quietNan
  | .infinite negative => if negative then f.quietNan else f.infinity
  | .finite negative units =>
    if units = 0 then bits
    else if negative then f.quietNan
    else
      let n := units * f.one
      let r := wholeRoot n
      roundRatio f (2 * r + if r * r = n then 0 else 1) 2

/-- The greatest whole value that does not exceed a value. -/
def floor (f : Format) (bits : Nat) : Nat :=
  match f.datum bits with
  | .finite negative units =>
    let whole := if negative then (units + (f.one - 1)) / f.one else units / f.one
    f.withSign negative (roundRatio f (whole * f.one) 1)
  | _ => bits

/-- The value without its sign. -/
def magnitude (f : Format) (bits : Nat) : Nat := bits % f.signBit

end NativeBridge.Binary
