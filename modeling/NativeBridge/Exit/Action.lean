/-! # What hooks do

A hook gives back the memory of a thread's stack, closes a library, or goes through steps of its
own. Steps may register and remove hooks and run all that are pending; a step that panics ends its
hook and no other. The weight of an action is the number of hooks that can start because of it.
-/
namespace NativeBridge

inductive HookStep
  | note (text : String)
  | register (steps : List HookStep)
  | unregister (hook : Nat)
  | countPending
  | runPending
  | panic

inductive ExitAction
  | releaseStack
  | closeLibrary (library : Nat)
  | script (steps : List HookStep)

namespace HookStep

mutual

/-- The number of hooks that a step can bring about. -/
def weight : HookStep → Nat
  | register steps => weights steps + 1
  | _ => 0

def weights : List HookStep → Nat
  | [] => 0
  | s :: rest => weight s + weights rest

end

end HookStep

def ExitAction.weight : ExitAction → Nat
  | script steps => HookStep.weights steps + 1
  | _ => 1

/-- What hooks leave in the log. -/
inductive LogEntry
  | text (text : String)
  | flag (value : Bool)
  | count (n : Nat)
deriving DecidableEq

end NativeBridge
