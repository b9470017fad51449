import NativeBridge.Session.Basic

/-! # Opening and closing libraries

A library is opened by the first of several candidate names that is already registered or that the
loader accepts, and from then on its name leads to it. Closing removes the name and the exit hook;
only the first time matters. A library that is to be closed at exit gets one hook, however often
that is asked.
-/
namespace NativeBridge.Session

variable {κ : Type}

def registered? (s : Session κ) (name : String) : Option Nat :=
  (s.registry.find? fun entry => entry.1 == name).map Prod.snd

def library? (s : Session κ) (i : Nat) : Option (SharedLibrary κ) := s.libraries[i]?

def setLibrary (i : Nat) (l : SharedLibrary κ) : SessionM κ Unit := modify fun s =>
  { s with libraries := s.libraries.set i l }

/-- Adds a library that has just been loaded. -/
def addLibrary (name : String) (exports : Exports κ) : SessionM κ Nat := fun s =>
  (s.libraries.length, { s with
    libraries := s.libraries ++ [⟨name, some exports, none⟩]
    registry := (name, s.libraries.length) :: s.registry })

/-- The first candidate that can be used, or the reason against each. -/
def openFirst (mode : LinkMode) : List String → SessionM κ (Except (List String) Nat)
  | [] => return .error []
  | name :: rest => do
    let s ← get
    match s.registered? name with
    | some i => return .ok i
    | none =>
      if hasNul name then
        return (← openFirst mode rest).mapError
          ((Text.escape name ++ ": contains a NUL byte") :: ·)
      else
        match s.loader.load mode name with
        | .ok exports => return .ok (← addLibrary name exports)
        | .error reason => return (← openFirst mode rest).mapError ((name ++ ": " ++ reason) :: ·)

/-- Has an open library closed at exit. -/
def closeAtExit (i : Nat) : SessionM κ Unit := do
  match (← get).library? i with
  | none => return ()
  | some l =>
    if l.exitHook.isNone && l.isOpen then
      let id ← addHook (.closeLibrary i)
      setLibrary i { l with exitHook := some id }

def openLibrary (candidates : List String) (mode : LinkMode) (atExit : Bool) :
    SessionM κ (Except CallError Nat) := do
  match ← openFirst mode candidates with
  | .error reasons => return .error (.libraryNotFound candidates reasons)
  | .ok i =>
    if atExit then closeAtExit i
    return .ok i

/-- Opens a library where one can be opened, and keeps quiet about the reasons where none can. -/
def tryOpenLibrary (candidates : List String) (mode : LinkMode) (atExit : Bool) :
    SessionM κ (Option Nat) := do
  return (← openLibrary candidates mode atExit).toOption

/-- The names of the C runtime library, the best first. -/
def runtimeNames : List String := ["libc.so.6", "libc.so"]

def openRuntime : SessionM κ (Except CallError Nat) := openLibrary runtimeNames .lazy false

/-- Removes a name from the registry if it leads to this library. -/
def forget (name : String) (i : Nat) : SessionM κ Unit := modify fun s =>
  { s with registry := s.registry.filter fun entry => entry ≠ (name, i) }

def closeLibrary (i : Nat) : SessionM κ Unit := do
  match (← get).library? i with
  | none => return ()
  | some l =>
    if l.isOpen then
      setLibrary i { l with exports := none, exitHook := none }
      forget l.name i
      match l.exitHook with
      | none => return ()
      | some id => let _ ← removeHook id

end NativeBridge.Session
