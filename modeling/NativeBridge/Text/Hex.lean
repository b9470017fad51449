import NativeBridge.Text.Numeral

/-! # Hexadecimal

Numbers and bytes in hexadecimal digits: a number with as many leading zeros as a width asks for, a
byte always with two digits.
-/
namespace NativeBridge.Text

def hexDigits (n : Nat) : List Char := Nat.toDigits 16 n

/-- The digits of a number, and zeros before them up to a width. -/
def hexPadded (width n : Nat) : List Char :=
  List.replicate (width - (hexDigits n).length) '0' ++ hexDigits n

def hexOfBytes (bytes : List UInt8) : String :=
  String.ofList (bytes.flatMap fun b => hexPadded 2 b.toNat)

/-- The bytes that pairs of digits write, put behind those of `acc`, which has the latest first. -/
def readHex (acc : List UInt8) : List Char → Option (List UInt8)
  | [] => some acc.reverse
  | [_] => none
  | a :: b :: rest =>
    match digit? 16 a, digit? 16 b with
    | some m, some n => readHex (UInt8.ofNat (m * 16 + n) :: acc) rest
    | _, _ => none

def bytesOfHex? (s : String) : Option (List UInt8) := readHex [] s.toList

end NativeBridge.Text
