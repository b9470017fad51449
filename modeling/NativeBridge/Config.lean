import NativeBridge.Memory.Address
import NativeBridge.Text.Blank
import NativeBridge.Text.Numeral

/-! # Configuration

A size is a decimal number of bytes, with blanks around it and with `k` or `m` behind it for
multiples of 1024 and 1024 · 1024. The size of the argument stacks comes from the environment;
where it is absent, no size, or too small, the default stands.
-/
namespace NativeBridge

open Text

/-- The digits of a size and what their value is multiplied by. -/
def sizeParts (cs : List Char) : Option (List Char × Nat) :=
  match cs.getLast? with
  | none => none
  | some c =>
    if c = 'k' ∨ c = 'K' then some (cs.dropLast, 1024)
    else if c = 'm' ∨ c = 'M' then some (cs.dropLast, 1024 * 1024)
    else some (cs, 1)

/-- The number of bytes that a text asks for, if an address can hold it. -/
def parseSize? (s : String) : Option Nat := do
  let (digits, unit) ← sizeParts (trim s.toList)
  let n ← positive? 10 (addressLimit - 1) digits
  if n * unit < addressLimit then some (n * unit) else none

structure Config where
  /-- Bytes of each thread's argument stack. -/
  stackSize : Nat
deriving DecidableEq

namespace Config

/-- The environment variable that holds the size of the argument stacks. -/
def stackSizeVariable : String := "CINTEROP_STACK_SIZE"

def leastStackSize : Nat := 256

instance : Inhabited Config := ⟨⟨8192⟩⟩

def ofVariable (text : Option String) : Config :=
  match text.bind parseSize? with
  | some n => if leastStackSize ≤ n then ⟨n⟩ else default
  | none => default

end Config

end NativeBridge
