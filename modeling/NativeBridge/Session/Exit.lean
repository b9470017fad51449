import NativeBridge.Session.Libraries

/-! # Running the exit hooks

Hooks are started in the order in which they were registered until none is pending, those that were
registered meanwhile included. A hook may itself run the pending hooks; they count for that run. A
hook that panics counts like any other. A run starts no more hooks than the actions that are pending
when it begins can bring about.
-/
namespace NativeBridge.Session

variable {κ : Type}

/-- Registers a hook with steps of its own and gives its number. -/
def registerSteps (steps : List HookStep) : SessionM κ Nat := do
  let id ← addHook (.script steps)
  let s ← get
  set { s with numbered := s.numbered ++ [id] }
  return s.numbered.length

/-- Removes the hook of a number. -/
def unregisterNumber (n : Nat) : SessionM κ Bool := do
  match (← get).numbered[n]? with
  | none => return false
  | some id => removeHook id

/-- Performs one step, with `run` for a run of the pending hooks. -/
def performStep (run : SessionM κ Nat) : HookStep → SessionM κ Unit
  | .note text => appendLog (.text text)
  | .register steps => do let _ ← registerSteps steps
  | .unregister n => do appendLog (.flag (← unregisterNumber n))
  | .countPending => do appendLog (.count (← get).hooks.size)
  | .runPending => do appendLog (.count (← run))
  | .panic => return ()

def performSteps (run : SessionM κ Nat) : List HookStep → SessionM κ Unit
  | [] => return ()
  | .panic :: _ => return ()
  | s :: rest => do
    performStep run s
    performSteps run rest

def perform (run : SessionM κ Nat) : ExitAction → SessionM κ Unit
  | .releaseStack => releaseArena
  | .closeLibrary i => closeLibrary i
  | .script steps => performSteps run steps

/-- Takes the first pending hook. -/
def startFirst : SessionM κ (Option ExitAction) := fun s =>
  match s.hooks.start? with
  | none => (none, s)
  | some (action, hooks) => (some action, { s with hooks })

/-- Runs hooks of which at most `limit` can start, and gives the number of those that this run
started itself. -/
def runWithin : Nat → SessionM κ Nat
  | 0 => return 0
  | limit + 1 => do
    match ← startFirst with
    | none => return 0
    | some action =>
      perform (runWithin limit) action
      return (← runWithin limit) + 1

/-- The number of hooks that pending ones can bring about, themselves included. -/
def weightOf : List (HookId × ExitAction) → Nat
  | [] => 0
  | (_, action) :: rest => action.weight + weightOf rest

def runHooks : SessionM κ Nat := do runWithin (weightOf (← get).hooks.pending)

end NativeBridge.Session
