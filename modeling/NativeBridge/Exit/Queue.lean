/-! # Exit hooks

Hooks wait in the order in which they were registered, each under an identifier that is given out
once. A hook leaves the queue by being started or by being removed, never by both. The journal
keeps what happened to every hook, the latest first.
-/
namespace NativeBridge

structure HookId where
  raw : Nat
deriving DecidableEq, Inhabited

inductive HookEvent
  | registered (id : HookId)
  | started (id : HookId)
  | removed (id : HookId)
deriving DecidableEq

/-- Hooks that do `α` when they are started. -/
structure HookQueue (α : Type) where
  pending : List (HookId × α)
  upcoming : Nat
  journal : List HookEvent

namespace HookQueue

variable {α : Type}

def empty : HookQueue α := ⟨[], 0, []⟩

instance : Inhabited (HookQueue α) := ⟨empty⟩

def size (q : HookQueue α) : Nat := q.pending.length

def isPending (q : HookQueue α) (id : HookId) : Bool := q.pending.any fun entry => entry.1 == id

def register (q : HookQueue α) (action : α) : HookId × HookQueue α :=
  (⟨q.upcoming⟩,
    { pending := q.pending ++ [(⟨q.upcoming⟩, action)]
      upcoming := q.upcoming + 1
      journal := .registered ⟨q.upcoming⟩ :: q.journal })

/-- Removes a pending hook, and says whether there was one. -/
def unregister (q : HookQueue α) (id : HookId) : Bool × HookQueue α :=
  if q.isPending id then
    (true, { q with
      pending := q.pending.eraseP fun entry => entry.1 == id
      journal := .removed id :: q.journal })
  else (false, q)

/-- Takes the first pending hook in order to start it. -/
def start? (q : HookQueue α) : Option (α × HookQueue α) :=
  match q.pending with
  | [] => none
  | (id, action) :: rest =>
    some (action, { q with pending := rest, journal := .started id :: q.journal })

end HookQueue

end NativeBridge
