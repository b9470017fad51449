import NativeBridge.Config
import NativeBridge.Exit.Action
import NativeBridge.Library.Basic
import NativeBridge.Memory.Stack

/-! # The session

What lasts from the start of a program to its end: the hooks that wait for that end and what they
have logged, the libraries that were loaded, the registry of those that are open by their names, and
the argument stack of the thread once it has been asked for.
-/
namespace NativeBridge

structure Session (κ : Type) where
  config : Config
  loader : Loader κ
  hooks : HookQueue ExitAction
  /-- The hooks with steps of their own, by their numbers. -/
  numbered : List HookId
  log : List LogEntry
  libraries : List (SharedLibrary κ)
  /-- The index of the open library of each name. -/
  registry : List (String × Nat)
  arena : Option Arena

abbrev SessionM (κ : Type) := StateM (Session κ)

namespace Session

variable {κ : Type}

def start (config : Config) (loader : Loader κ) : Session κ :=
  { config, loader, hooks := .empty, numbered := [], log := [], libraries := [], registry := [],
    arena := none }

def addHook (action : ExitAction) : SessionM κ HookId := fun s =>
  let (id, hooks) := s.hooks.register action
  (id, { s with hooks })

def removeHook (id : HookId) : SessionM κ Bool := fun s =>
  let (found, hooks) := s.hooks.unregister id
  (found, { s with hooks })

def appendLog (entry : LogEntry) : SessionM κ Unit := modify fun s =>
  { s with log := s.log ++ [entry] }

/-- The thread's stack; it is made when it is first asked for, and a hook will release it. -/
def threadArena : SessionM κ Arena := do
  let s ← get
  match s.arena with
  | some arena => return arena
  | none =>
    let arena := Arena.ofCapacity s.config.stackSize
    let _ ← addHook .releaseStack
    modify fun s => { s with arena := some arena }
    return arena

/-- Works on the thread's stack. -/
def onThreadArena {α : Type} (op : Arena.ArenaM α) : SessionM κ (Except Fault α) := do
  match op (← threadArena) with
  | .ok a arena =>
    modify fun s => { s with arena := some arena }
    return .ok a
  | .error e arena =>
    modify fun s => { s with arena := some arena }
    return .error e

def releaseArena : SessionM κ Unit := modify fun s =>
  { s with arena := s.arena.map fun a => { a with stack := a.stack.release } }

end Session

end NativeBridge
