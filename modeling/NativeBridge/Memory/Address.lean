import NativeBridge.Fault

/-! # Addresses

Addresses are numbers below the size of the address space. Rounding one up to an alignment adds the
greatest remainder and clears the bits below the alignment; where the alignment is a power of two
this is the next multiple. Words that are rounded must not leave the address space on the way. A block of
memory and its alignment may not take up more than half of the address space.
-/
namespace NativeBridge

def addressLimit : Nat := Nat.pow 2 64

/-- `address` with the greatest remainder added and then without the bits below `alignment`. -/
def alignUp (address alignment : Nat) : Nat :=
  let raised := address + alignment - 1
  raised - (raised &&& (alignment - 1))

/-- Rounds a word up; every step on the way has to be a word as well. -/
def alignWord (address alignment : Nat) : Except Fault Nat :=
  if addressLimit ≤ address + alignment then .error .sumTooGreat
  else if alignment = 0 then .error .differenceNegative
  else .ok (alignUp address alignment)

/-- Where a block ends: behind its last byte, or at the greatest address if it would end beyond. -/
def endOf (start size : Nat) : Nat := min (start + size) (addressLimit - 1)

def isPowerOfTwo (n : Nat) : Bool := n ≠ 0 && n &&& (n - 1) = 0

/-- The greatest size and alignment together of a block that may be asked for. -/
def greatestSpan : Nat := Nat.pow 2 63

/-- Whether a block of this size and alignment may be asked for at all. -/
def isRequest (size alignment : Nat) : Bool := max size 1 + alignment ≤ greatestSpan

/-- No machine has room for a block of this size. -/
def hopelessSize : Nat := Nat.pow 2 40

end NativeBridge
