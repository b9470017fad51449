import NativeBridge.Name.Basic
import NativeBridge.Text.Utf8

/-! # Faults of encoded data

Every way in which bytes fail to be an encoded value, with the offset at which that shows. Offsets
count bytes from the start of the input. A fault that rests on another names it as its cause.
-/
namespace NativeBridge

/-- Why compressed data cannot be expanded. -/
inductive InflateError
  | corrupt
  | incomplete
deriving DecidableEq

def InflateError.message : InflateError → String
  | corrupt => "corrupt deflate stream"
  | incomplete => "incomplete deflate stream"

/-- The deepest nesting of types that decoding and demangling accept. -/
def maxNesting : Nat := 256

inductive DecodeError
  | unexpectedEnd (offset needed remaining : Nat)
  | tagMismatch (what : String) (offset : Nat) (expected found : UInt8)
  | unknownTag (what : String) (offset : Nat) (tag : UInt8)
  | invalidKind (offset : Nat) (ordinal : UInt8)
  | invalidFlag (offset : Nat) (flag : UInt8)
  | invalidText (offset : Nat) (fault : Text.Utf8Fault)
  | invalidName (cause : NameError)
  | nestingTooDeep (offset : Nat)
  | sizeOverflow (offset : Nat)
  | zeroDimensions (offset : Nat)
  | trailingBytes (count : Nat)
  | decompress (cause : InflateError)
deriving DecidableEq

namespace DecodeError

def message : DecodeError → String
  | unexpectedEnd offset needed remaining =>
    "unexpected end of input at offset " ++ toString offset ++ ": needed " ++ toString needed ++
      " bytes, " ++ toString remaining ++ " remaining"
  | tagMismatch what offset expected found =>
    "kind tag mismatch for " ++ what ++ " at offset " ++ toString offset ++ ": expected " ++
      toString expected.toNat ++ ", found " ++ toString found.toNat
  | unknownTag what offset tag =>
    "unknown " ++ what ++ " kind tag " ++ toString tag.toNat ++ " at offset " ++ toString offset
  | invalidKind offset ordinal =>
    "invalid builtin ordinal " ++ toString ordinal.toNat ++ " at offset " ++ toString offset
  | invalidFlag offset flag =>
    "invalid presence flag " ++ toString flag.toNat ++ " at offset " ++ toString offset
  | invalidText offset fault =>
    "invalid UTF-8 in string at offset " ++ toString offset ++ ": " ++ fault.message
  | invalidName cause => "invalid symbol name: " ++ cause.message
  | nestingTooDeep offset =>
    "type nesting exceeds " ++ toString maxNesting ++ " levels at offset " ++ toString offset
  | sizeOverflow offset =>
    "type at offset " ++ toString offset ++ " is larger than the address space"
  | zeroDimensions offset => "array type with zero dimensions at offset " ++ toString offset
  | trailingBytes count => toString count ++ " trailing bytes after decoded value"
  | decompress cause => "decompression failed: " ++ cause.message

/-- The message of a fault, then that of the fault it rests on. -/
def chain (e : DecodeError) : List String :=
  match e with
  | invalidText _ fault => [e.message, fault.message]
  | invalidName cause => [e.message, cause.message]
  | decompress cause => [e.message, cause.message]
  | _ => [e.message]

end DecodeError

end NativeBridge
