import NativeBridge.Fault
import NativeBridge.Text.Utf8

/-! # Encoding

The bytes of numbers, flags, texts, lists and optional values. Numbers have their most significant
byte first; texts and lists start with their length as a 32-bit number, optional values with a
flag. An encoding is a plain list of bytes, so that encodings of parts are joined by `++`.
-/
namespace NativeBridge.Wire

abbrev Bytes := List UInt8

/-- Four bytes, the most significant first. -/
def word (n : UInt32) : Bytes :=
  [n.toNat / 0x1000000, n.toNat / 0x10000, n.toNat / 0x100, n.toNat].map UInt8.ofNat

def int (n : Int32) : Bytes := word n.toUInt32

/-- The greatest length that the format can state. -/
def maxLength : Nat := 0xffffffff

def length (n : Nat) : Bytes := word (UInt32.ofNat n)

/-- A length, if the format can state it. -/
def checkedLength (n : Nat) : Except Fault Bytes :=
  if n ≤ maxLength then .ok (length n) else .error (.lengthTooGreat n)

def flag (b : Bool) : Bytes := [if b then 1 else 0]

def text (s : String) : Bytes := length s.utf8ByteSize ++ Text.utf8 s

def list {α : Type} (item : α → Bytes) (xs : List α) : Bytes :=
  length xs.length ++ xs.flatMap item

def optional {α : Type} (item : α → Bytes) : Option α → Bytes
  | none => flag false
  | some a => flag true ++ item a

@[simp] theorem length_word (n : UInt32) : (word n).length = 4 := rfl

end NativeBridge.Wire
