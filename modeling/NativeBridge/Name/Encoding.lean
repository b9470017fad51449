import NativeBridge.Wire.Decode

/-! # Encoded names

A name is its full text and then its short text. Reading one checks that the two make a valid name.
-/
namespace NativeBridge.SymbolName
open Wire

def encode (n : SymbolName) : Bytes := text n.full ++ text n.short

def decoder : Decoder SymbolName := do
  let full ← Decoder.text
  let short ← Decoder.text
  match make full short with
  | .ok n => return n
  | .error e => throw (.invalidName e)

end NativeBridge.SymbolName
