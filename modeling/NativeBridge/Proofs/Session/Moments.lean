import Mathlib.Logic.Relation
import NativeBridge.Proofs.Session.Effects

/-! # From one moment to the next

A program and the hooks that it has registered work on one session. Either the program or the hook
that was started last is at work, or a call of `runHooks` is about to start its next hook. What is at
work may do anything that the session offers, so that nothing is assumed about hooks: they register
and remove others, open and close libraries, call `runHooks` themselves, and end early in a panic.
-/
namespace NativeBridge

/-- A call of `runHooks`: how many of its hooks have ended, which is what it returns in the end, and
all that it has started, in turn. -/
structure Call where
  ran : Nat
  hooks : List HookId

/-- What can be done with a session besides a run of the hooks. Lookups leave it as it is, and to try to
open a library does what opening it does. -/
inductive Deed where
  | log (entry : LogEntry)
  | register (steps : List HookStep)
  | unregister (n : Nat)
  | useStack (op : Arena.ArenaM Unit)
  | openLibrary (candidates : List String) (mode : LinkMode) (atExit : Bool)
  | closeAtExit (i : Nat)
  | closeLibrary (i : Nat)

/-- What is done to the session, and the library that is thereby requested to be closed at exit. -/
def Deed.perform {κ : Type} : Deed → SessionM κ (Option Nat)
  | log entry => do
    Session.appendLog entry
    return none
  | register steps => do
    let _ ← Session.registerSteps steps
    return none
  | unregister n => do
    let _ ← Session.unregisterNumber n
    return none
  | useStack op => do
    let _ ← Session.onThreadArena op
    return none
  | openLibrary candidates mode atExit => do
    let opened ← Session.openLibrary candidates mode atExit
    return if atExit then opened.toOption else none
  | closeAtExit i => do
    let library := (← get).library? i
    Session.closeAtExit i
    return library.map fun _ => i
  | closeLibrary i => do
    Session.closeLibrary i
    return none

/-- A session at one point of a run, with the calls of `runHooks` that are in progress, the innermost
first, those that have returned, and the libraries that were requested to be closed at exit. It is
`working` while the program or a hook is at work. -/
structure Moment (κ : Type) where
  session : Session κ
  calls : List Call
  working : Bool
  returned : List Call
  requested : List Nat

namespace Moment

variable {κ : Type}

def start (config : Config) (loader : Loader κ) : Moment κ :=
  ⟨.start config loader, [], true, [], []⟩

def hooks (m : Moment κ) : HookQueue ExitAction := m.session.hooks

def does (m : Moment κ) (d : Deed) : Moment κ :=
  let (library, session) := d.perform m.session
  { m with session, requested := library.toList ++ m.requested }

/-- What can come next. The hooks of libraries and of the stack are carried out as they are started, a
hook with steps of its own is at work until it ends, be it by a panic. -/
inductive Step : Moment κ → Moment κ → Prop
  | does {m : Moment κ} (working : m.working = true) (d : Deed) : Step m (m.does d)
  | call {m : Moment κ} (working : m.working = true) :
      Step m { m with calls := ⟨0, []⟩ :: m.calls, working := false }
  | start {m : Moment κ} {c : Call} {rest : List Call} {id : HookId} {steps : List HookStep}
      {queue : HookQueue ExitAction} (draining : m.working = false) (innermost : m.calls = c :: rest)
      (next : m.hooks.waiting.head? = some id)
      (run : m.hooks.start? = some (.script steps, queue)) :
      Step m { m with
        session := { m.session with hooks := queue }
        calls := { c with hooks := c.hooks ++ [id] } :: rest
        working := true }
  | ends {m : Moment κ} {c : Call} {rest : List Call} (working : m.working = true)
      (innermost : m.calls = c :: rest) :
      Step m { m with calls := { c with ran := c.ran + 1 } :: rest, working := false }
  | serve {m : Moment κ} {c : Call} {rest : List Call} {id : HookId} {action : ExitAction}
      {queue : HookQueue ExitAction} (nested : SessionM κ Nat) (draining : m.working = false)
      (innermost : m.calls = c :: rest) (next : m.hooks.waiting.head? = some id)
      (run : m.hooks.start? = some (action, queue)) (own : ∀ steps, action ≠ .script steps) :
      Step m { m with
        session := (Session.perform nested action { m.session with hooks := queue }).2
        calls := ⟨c.ran + 1, c.hooks ++ [id]⟩ :: rest
        working := false }
  | returns {m : Moment κ} {c : Call} {rest : List Call} (draining : m.working = false)
      (innermost : m.calls = c :: rest) (run : m.hooks.start? = none) :
      Step m { m with calls := rest, working := true, returned := c :: m.returned }

/-- The moments of all runs from the start. -/
def Reached (config : Config) (loader : Loader κ) (m : Moment κ) : Prop :=
  Relation.ReflTransGen Step (start config loader) m

end Moment

end NativeBridge
