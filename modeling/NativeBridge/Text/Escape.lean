import NativeBridge.Text.Hex

/-! # Escaped text

A text written with printable ASCII only: quotes and backslashes are escaped, tab, carriage return
and line feed have letters, and every other character is written by its code point in braces.
-/
namespace NativeBridge.Text

def escapeChar (c : Char) : List Char :=
  if c = '\t' then ['\\', 't']
  else if c = '\r' then ['\\', 'r']
  else if c = '\n' then ['\\', 'n']
  else if c = '\'' ∨ c = '"' ∨ c = '\\' then ['\\', c]
  else if ' ' ≤ c ∧ c ≤ '~' then [c]
  else ['\\', 'u', '\x7b'] ++ hexDigits c.toNat ++ ['\x7d']

def escape (s : String) : String := String.ofList (s.toList.flatMap escapeChar)

end NativeBridge.Text
