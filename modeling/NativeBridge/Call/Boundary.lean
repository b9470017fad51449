import NativeBridge.Call.Descriptor
import NativeBridge.Symbol.Signature

/-! # Types at the call boundary

A primitive crosses as itself, a reference as a pointer, and an application as its generic. Arrays
and structs have no kind of their own and do not cross; the first such type of a signature, its
return type before its native parameters, is the one that is reported.
-/
namespace NativeBridge

/-- The kind as which a type crosses. -/
def Ty.callKind (t : Ty) : Except CallError CallKind :=
  match t.head with
  | .builtin k => .ok (.ofKind k)
  | .reference _ => .ok .pointer
  | t => .error (.unsupportedType t.text)

namespace Descriptor

def callKinds : List Ty → Except CallError (List CallKind)
  | [] => .ok []
  | t :: ts => do
    let k ← t.callKind
    let ks ← callKinds ts
    return k :: ks

def ofTypes (returns : Ty) (parameters : List Ty) : Except CallError Descriptor := do
  let returns ← returns.callKind
  let parameters ← callKinds parameters
  return { returns, parameters }

/-- The descriptor of a function's native entry point. -/
def ofSignature (s : Signature) : Except CallError Descriptor :=
  ofTypes s.returns s.nativeParameters

end Descriptor

end NativeBridge
