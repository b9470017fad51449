import NativeBridge.Call.Kind

/-! # Faults

A fault is a rule that a caller broke. It ends the operation at once, and nothing that the caller
could check for is reported as one. Each has the message it is reported with.
-/
namespace NativeBridge

inductive Fault
  | lengthTooGreat (length : Nat)
  | emptyArray
  | alignmentNotPower (alignment : Nat)
  | invalidAllocation (size alignment : Nat)
  | sliceRange
  | stackReleased
  | stackOverflow (size alignment remaining capacity : Nat)
  | unmatchedPop
  | releasedOutOfOrder (depth current : Nat)
  | nestedFrameOpen
  | argumentsExhausted (count : Nat)
  | argumentKind (index : Nat) (found expected : CallKind)
  | argumentIsArray (index : Nat)
  | argumentIndex (index count : Nat)
  | nullFunction
  | entryMisplaced (address expected : Nat)
  | sumTooGreat
  | differenceNegative
  | remainderByZero
deriving DecidableEq

def Fault.message : Fault → String
  | lengthTooGreat length =>
    "length " ++ toString length ++ " exceeds the u32 range of the binary format"
  | emptyArray => "array type needs at least one element"
  | alignmentNotPower alignment => "alignment " ++ toString alignment ++ " is not a power of two"
  | invalidAllocation size alignment =>
    "invalid allocation request: " ++ toString size ++ " bytes aligned to " ++ toString alignment
  | sliceRange => "slice range"
  | stackReleased => "MemoryStack used after its extent was released"
  | stackOverflow size alignment remaining capacity =>
    "MemoryStack overflow: requested " ++ toString size ++ " bytes aligned to " ++
      toString alignment ++ ", " ++ toString remaining ++ " of " ++ toString capacity ++
      " bytes remaining"
  | unmatchedPop => "MemoryStack::pop without a matching push"
  | releasedOutOfOrder depth current =>
    "stack frame at depth " ++ toString depth ++ " released out of order (depth is " ++
      toString current ++ ")"
  | nestedFrameOpen => "argument buffer written while a nested stack frame is open"
  | argumentsExhausted count => "read past the last of " ++ toString count ++ " arguments"
  | argumentKind index found expected =>
    "argument " ++ toString index ++ " is " ++ found.name ++ " but " ++ expected.name ++
      " was read"
  | argumentIsArray index => "argument " ++ toString index ++ " is an array"
  | argumentIndex index count =>
    "argument index " ++ toString index ++ " out of range for " ++ toString count ++ " entries"
  | nullFunction => "native call through a null function address"
  | entryMisplaced address expected =>
    "assertion `left == right` failed\n  left: " ++ toString address ++ "\n right: " ++
      toString expected
  | sumTooGreat => "attempt to add with overflow"
  | differenceNegative => "attempt to subtract with overflow"
  | remainderByZero => "attempt to calculate the remainder with a divisor of zero"

end NativeBridge
