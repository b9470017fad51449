import NativeBridge.Value.Basic

/-! # Conversion between kinds

Integers, truth values, UTF-16 units and pointers convert by cutting the number to the width of the
target. A floating-point target takes the number as a double first; a floating-point source gives
its integer part within 128 bits, which is then cut. Nothing converts to or from `void`, and
floating-point values and pointers do not convert into each other.
-/
namespace NativeBridge.Value

def cast (v : Value) (k : CallKind) : Option Value :=
  if v.kind = k then some v
  else if k = .void ∨ v.kind = .void then none
  else match k.format? with
    | some f => v.double?.map fun bits => ofBits k (Binary.convert Binary.double f bits)
    | none =>
      match v.integer? with
      | some z => some (ofInt k z)
      | none =>
        if k = .pointer then none
        else v.double?.map fun bits => ofInt k (Binary.truncate Binary.double bits)

/-- The value as another kind, or that kind's zero where there is none. -/
def castOrZero (v : Value) (k : CallKind) : Value := (v.cast k).getD (zero k)

@[simp] theorem cast_self (v : Value) : v.cast v.kind = some v := by simp [cast]

end NativeBridge.Value
