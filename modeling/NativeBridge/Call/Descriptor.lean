import NativeBridge.Fault

/-! # Call descriptors

The kinds that a native function takes and returns. All that a call can go wrong with is named here
too: values and types that cannot cross, arguments that do not match a descriptor, and libraries
and symbols that are not there. An error is an answer to the caller, a fault is the caller's own.
-/
namespace NativeBridge

/-- The bytes of values of several kinds together. -/
def sizeOfKinds : List CallKind → Nat
  | [] => 0
  | k :: ks => k.size + sizeOfKinds ks

structure Descriptor where
  returns : CallKind
  parameters : List CallKind
deriving DecidableEq, Inhabited

namespace Descriptor

def text (d : Descriptor) : String :=
  "(" ++ ", ".intercalate (d.parameters.map CallKind.name) ++ ") -> " ++ d.returns.name

/-- The bytes of all arguments together. -/
def argumentsSize (d : Descriptor) : Nat := sizeOfKinds d.parameters

end Descriptor

instance : ToString Descriptor := ⟨Descriptor.text⟩

/-- How arguments differ from what a descriptor asks for. -/
inductive Mismatch
  | count (supplied : Nat) (descriptor : Descriptor)
  | array (index count : Nat) (kind : CallKind)
  | kind (index : Nat) (found expected : CallKind) (descriptor : Descriptor)
deriving DecidableEq

def Mismatch.message : Mismatch → String
  | count supplied descriptor =>
    toString supplied ++ " arguments supplied for " ++ descriptor.text
  | array index n k =>
    "argument " ++ toString index ++ " is an array of " ++ toString n ++ " " ++ k.name ++
      " values; pass arrays by pointer"
  | kind index found expected descriptor =>
    "argument " ++ toString index ++ " is " ++ found.name ++ " but " ++ descriptor.text ++
      " expects " ++ expected.name

inductive CallError
  | libraryNotFound (candidates reasons : List String)
  | symbolNotFound (library symbol : String)
  | libraryClosed (library : String)
  | invalidName (escaped : String)
  | unsupportedValue (index : Nat) (typeName : String)
  | unsupportedType (text : String)
  | signatureMismatch (mismatch : Mismatch)
  | returnKindMismatch (requested declared : CallKind)
deriving DecidableEq

def CallError.message : CallError → String
  | libraryNotFound candidates reasons =>
    "could not load any of [" ++ ", ".intercalate candidates ++ "]: " ++ "; ".intercalate reasons
  | symbolNotFound library symbol =>
    "symbol '" ++ symbol ++ "' not found in library '" ++ library ++ "'"
  | libraryClosed library => "library '" ++ library ++ "' is closed"
  | invalidName escaped => "invalid name '" ++ escaped ++ "': contains an interior NUL byte"
  | unsupportedValue index typeName =>
    "argument " ++ toString index ++ " has unsupported type " ++ typeName
  | unsupportedType text => "type '" ++ text ++ "' cannot cross the native call boundary"
  | signatureMismatch mismatch =>
    "argument buffer does not match descriptor: " ++ mismatch.message
  | returnKindMismatch requested declared =>
    "requested " ++ requested.name ++ " return but descriptor declares " ++ declared.name

/-- Why an operation gave no result. -/
inductive Failure
  | error (cause : CallError)
  | fault (cause : Fault)
deriving DecidableEq

end NativeBridge
