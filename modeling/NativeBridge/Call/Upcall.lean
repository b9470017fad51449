import NativeBridge.Call.Invoke
import NativeBridge.Value.Cast

/-! # Callbacks

A callback is behind an address like native code. It finds its arguments in a buffer of its own,
byte for byte as they were handed over, and its result is converted to the declared kind, or is
that kind's zero where it does not convert. Small integers fill the whole result word with their
sign.
-/
namespace NativeBridge

/-- A callback works on its own open buffer. -/
abbrev Callback (σ : Type) := BufferM σ Value

namespace Upcall

variable {σ : Type}

/-- The result word for a value. -/
def wordOf (v : Value) : Nat :=
  match v.integer? with
  | some z => (z % (addressLimit : Nat)).toNat
  | none => v.bits

def resultWord (returns : CallKind) (v : Value) : Nat := wordOf (v.castOrZero returns)

def receive : List Passed → BufferM σ Unit
  | [] => return ()
  | p :: ps => do
    BufferM.putRaw p.kind p.bytes
    receive ps

/-- The native code of a callback that returns a value of the given kind. -/
def code (returns : CallKind) (callback : Callback σ) : NativeCode σ := fun arguments => do
  let v ← Call.withBuffer do
    receive arguments
    callback
  return resultWord returns v

end Upcall

end NativeBridge
