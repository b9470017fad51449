import NativeBridge.Binary.Root
import NativeBridge.Call.Upcall
import NativeBridge.Library.Basic

/-! # The standard libraries

The functions of the C library and of the mathematical library that are at hand. Each takes one
argument in a word, integers extended by their sign, and leaves its result in a word. A library
also gives the symbols of those that it is built on.
-/
namespace NativeBridge.Standard

variable {σ : Type}

/-- The word in which an argument is handed over. -/
def argumentWord (p : Passed) : Nat := Upcall.wordOf (Value.ofBytes p.kind p.bytes)

/-- Code that computes its result from the word of its first argument. -/
def unary (f : Nat → Nat) : NativeCode σ := fun arguments =>
  return f ((arguments.head?.map argumentWord).getD 0)

/-- The magnitude of a signed number of `width` bits; the least number is its own. -/
def absolute (width word : Nat) : Nat :=
  let n := word % Nat.pow 2 width
  if n < Nat.pow 2 (width - 1) then n else Nat.pow 2 width - n

/-- The lower half of a word. -/
def half (word : Nat) : Nat := word % Nat.pow 2 32

/-- The upper-case letter of a lower-case one. Negative characters are read as bytes, all but the
mark of the end of input. -/
def toUpper (word : Nat) : Nat :=
  let c := half word
  if 97 ≤ c && c ≤ 122 then c - 32
  else if 0xffffff80 ≤ c && c < 0xffffffff then c - 0xffffff00
  else c

/-- The bit by which the table of character classes marks digits. -/
def digitMark : Nat := 0x800

def isDigit (word : Nat) : Nat := if 48 ≤ half word && half word ≤ 57 then digitMark else 0

def cLibrary : Exports (NativeCode σ)
  | "abs" => some (unary (absolute 32))
  | "labs" => some (unary (absolute 64))
  | "toupper" => some (unary toUpper)
  | "isdigit" => some (unary isDigit)
  | _ => none

def mathLibrary : Exports (NativeCode σ)
  | "sqrt" => some (unary (Binary.root Binary.double))
  | "floor" => some (unary (Binary.floor Binary.double))
  | "fabsf" => some (unary fun word => Binary.magnitude Binary.single (half word))
  | symbol => cLibrary symbol

def loader : Loader (NativeCode σ) where
  load _ name :=
    if name = "libc.so.6" then .ok cLibrary
    else if name = "libm.so.6" then .ok mathLibrary
    else .error (name ++ ": cannot open shared object file: No such file or directory")

end NativeBridge.Standard
