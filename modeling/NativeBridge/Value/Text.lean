import NativeBridge.Binary.Literal
import NativeBridge.Binary.Shortest
import NativeBridge.Text.Blank
import NativeBridge.Text.Hex
import NativeBridge.Value.Basic

/-! # Values as text

Reading a literal of a kind ignores blanks around it and refuses numbers outside the kind's range.
Writing gives decimal numbers, `true` and `false`, a character between quotes or its unit in
hexadecimal, and addresses in hexadecimal behind `0x`.
-/
namespace NativeBridge

/-- How far the numbers of a kind go below zero. -/
def CallKind.below (k : CallKind) : Nat := if k.isSigned then k.patterns / 2 else 0

/-- The greatest number of an integer kind. -/
def CallKind.greatest (k : CallKind) : Nat := k.patterns - k.below - 1

namespace Value
open Text

def integerLiteral? (k : CallKind) (cs : List Char) : Option Value :=
  if k.isSigned then (signed? 10 k.below k.greatest cs).map (ofInt k)
  else (positive? 10 k.greatest cs).map (ofBits k)

def boolLiteral? (cs : List Char) : Option Value :=
  if cs = "true".toList then some (ofBool true)
  else if cs = "false".toList then some (ofBool false)
  else none

def charLiteral? : List Char → Option Value
  | [c] => (unitOfChar? c).map (ofBits .char)
  | _ => none

def pointerLiteral? : List Char → Option Value
  | '0' :: x :: cs =>
    if x = 'x' ∨ x = 'X' then (positive? 16 (CallKind.greatest .pointer) cs).map (ofBits .pointer)
    else none
  | _ => none

def parse? (k : CallKind) (s : String) : Option Value :=
  let cs := trim s.toList
  match k.format? with
  | some f => (Binary.literal? f cs).map (ofBits k)
  | none =>
    match k with
    | .void => none
    | .bool => boolLiteral? cs
    | .char => charLiteral? cs
    | .pointer => pointerLiteral? cs
    | k => integerLiteral? k cs

def charText (unit : Nat) : String :=
  match charOfUnit? unit with
  | some c => String.ofList ['\'', c, '\'']
  | none => String.ofList (['\\', 'u', '\x7b'] ++ hexPadded 4 unit ++ ['\x7d'])

def text (v : Value) : String :=
  match v.kind.format? with
  | some f => Binary.text f v.bits
  | none =>
    match v.kind with
    | .void => "void"
    | .bool => if v.bits = 0 then "false" else "true"
    | .char => charText v.bits
    | .pointer => String.ofList (['0', 'x'] ++ hexDigits v.bits)
    | _ => toString (v.integer?.getD 0)

end Value

instance : ToString Value := ⟨Value.text⟩

end NativeBridge
