import NativeBridge.Type.Encoding

/-! # Function signatures

A function has a return type, parameters and up to three kinds of receiver. At a native call the
receivers become parameters: the dispatch receiver, the context receivers, the extension receiver
and then the parameters of the function itself.
-/
namespace NativeBridge

structure Signature where
  returns : Ty
  parameters : List Ty
  dispatch : Option Ty
  extension : Option Ty
  contexts : List Ty
deriving DecidableEq, Inhabited

namespace Signature
open Wire

/-- What the native entry point receives, in call order. -/
def nativeParameters (s : Signature) : List Ty :=
  s.dispatch.toList ++ s.contexts ++ s.extension.toList ++ s.parameters

def encode (s : Signature) : Bytes :=
  s.returns.encode ++ Ty.encodeList s.parameters ++ optional Ty.encode s.dispatch ++
    optional Ty.encode s.extension ++ Ty.encodeList s.contexts

def decoder : Decoder Signature := do
  let returns ← Ty.decoder
  let parameters ← Decoder.list Ty.decoder
  let dispatch ← Decoder.optional Ty.decoder
  let extension ← Decoder.optional Ty.decoder
  let contexts ← Decoder.list Ty.decoder
  return { returns, parameters, dispatch, extension, contexts }

end Signature

end NativeBridge
