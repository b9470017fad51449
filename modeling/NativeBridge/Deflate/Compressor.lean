import NativeBridge.Deflate.Inflate
import NativeBridge.Wire.Decode

/-! # Compressors

A compressor is a pair of functions on whole payloads, of which the second undoes the first. The
one given here stores its data in blocks without changing them, which any expander can read.
-/
namespace NativeBridge

structure Compressor where
  compress : List UInt8 → List UInt8
  decompress : List UInt8 → Except InflateError (List UInt8)

namespace Deflate

/-- Two bytes, the lower first. -/
def littleEndian (n : Nat) : List UInt8 := [UInt8.ofNat (n % 256), UInt8.ofNat (n / 256)]

/-- The most bytes that a stored block can hold. -/
def maxStored : Nat := 0xffff

def storedBlock (last : Bool) (bytes : List UInt8) : List UInt8 :=
  (if last then 1 else 0) ::
    (littleEndian bytes.length ++ littleEndian (maxStored - bytes.length) ++ bytes)

def store (bytes : List UInt8) : List UInt8 :=
  if bytes.length ≤ maxStored then storedBlock true bytes
  else storedBlock false (bytes.take maxStored) ++ store (bytes.drop maxStored)
termination_by bytes.length
decreasing_by simp only [List.length_drop, maxStored] at *; omega

def storing : Compressor := ⟨store, inflate⟩

end Deflate

namespace Wire

/-- A complete input that was compressed as a whole. -/
def decodeCompressed {α : Type} (z : Compressor) (d : Decoder α) (bytes : Bytes) :
    Except DecodeError α × List UInt32 :=
  match z.decompress bytes with
  | .ok payload => decodeAll d payload
  | .error e => (.error (.decompress e), [])

end Wire

end NativeBridge
