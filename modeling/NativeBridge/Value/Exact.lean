import NativeBridge.Value.Text

/-! # Exact text of values

A text from which every value can be had back bit for bit: integers, units and addresses in decimal,
truth values in words, floating-point data as the hexadecimal digits of its bits. All data that is
no number is written `nan`, and read as the quiet one.
-/
namespace NativeBridge

namespace Binary

def exact (f : Format) (bits : Nat) : String :=
  match f.datum bits with
  | .nan => "nan"
  | _ => String.ofList (Text.hexPadded ((f.fractionBits + f.exponentBits + 1) / 4) bits)

def ofExact? (f : Format) (s : String) : Option Nat :=
  if s = "nan" then some f.quietNan else Text.unsigned? 16 (2 * f.signBit - 1) s.toList

def isNan (f : Format) (bits : Nat) : Bool := f.datum bits == .nan

end Binary

namespace Value

def isNan (v : Value) : Bool := v.kind.format?.any fun f => Binary.isNan f v.bits

def exact (v : Value) : String :=
  match v.kind.format? with
  | some f => Binary.exact f v.bits
  | none =>
    match v.kind with
    | .void => ""
    | .bool => if v.bits = 0 then "false" else "true"
    | _ => toString (v.integer?.getD 0)

def ofExact? (k : CallKind) (s : String) : Option Value :=
  match k.format? with
  | some f => (Binary.ofExact? f s).map (ofBits k)
  | none =>
    match k with
    | .void => some void
    | .bool => some (ofBool (s = "true"))
    | _ => (integerLiteral? k s.toList)

end Value

end NativeBridge
