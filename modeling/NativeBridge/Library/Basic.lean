import NativeBridge.Exit.Queue
import NativeBridge.Fault
import NativeBridge.Call.Descriptor
import NativeBridge.Text.Escape

/-! # Shared libraries

A loader says for every name whether there is a library and what the library exports. A library
that was loaded keeps its name for good and its exports until it is closed. The exit hook is the one
that will close it, where there is one.
-/
namespace NativeBridge

/-- When the symbols of a library are resolved. -/
inductive LinkMode
  | lazy
  | now
deriving DecidableEq, Inhabited

/-- The code of type `κ` that a library exports. -/
abbrev Exports (κ : Type) := String → Option κ

/-- Loads a library or tells the reason why not. -/
structure Loader (κ : Type) where
  load : LinkMode → String → Except String (Exports κ)

structure SharedLibrary (κ : Type) where
  name : String
  exports : Option (Exports κ)
  exitHook : Option HookId

/-- Loaders take texts that a zero ends, so a name cannot hold one. -/
def hasNul (s : String) : Bool := s.toList.contains (Char.ofNat 0)

namespace SharedLibrary

variable {κ : Type}

def isOpen (l : SharedLibrary κ) : Bool := l.exports.isSome

/-- The code of an exported symbol, `none` where the library has no such symbol. -/
def find (l : SharedLibrary κ) (symbol : String) : Except CallError (Option κ) :=
  if hasNul symbol then .error (.invalidName (Text.escape symbol))
  else
    match l.exports with
    | none => .error (.libraryClosed l.name)
    | some exports => .ok (exports symbol)

/-- The code of a symbol that must be exported. -/
def get (l : SharedLibrary κ) (symbol : String) : Except CallError κ :=
  match l.find symbol with
  | .error e => .error e
  | .ok none => .error (.symbolNotFound l.name symbol)
  | .ok (some code) => .ok code

def text (l : SharedLibrary κ) : String :=
  "SharedLibrary \x7b name: \"" ++ Text.escape l.name ++ "\", open: " ++ toString l.isOpen ++ " \x7d"

end SharedLibrary

instance {κ : Type} : ToString (SharedLibrary κ) := ⟨SharedLibrary.text⟩

end NativeBridge
