import NativeBridge.Memory.Address
import NativeBridge.Memory.Basic

/-! # The memory stack

Addresses are handed out in rising order from one extent. A frame remembers the top of the stack;
popping it goes back there, and so gives up everything that was handed out since. A scope is a
frame that knows its depth, and that refuses to be closed while a later frame is open. An operation
that faults leaves the stack as it was.

The top is rounded as a build does that leaves its sums unchecked. One that checks them, as for words on
their own, rounds the same as long as the top is in the lower half of the address space.
-/
namespace NativeBridge

/-- An extent of `capacity` bytes from `base` on, the top of what is in use, and the tops that open
frames go back to, the innermost first. -/
structure Stack where
  base : Nat
  capacity : Nat
  top : Nat
  frames : List Nat
  live : Bool
deriving DecidableEq, Inhabited

/-- A frame by the depth of the stack while it is the innermost. -/
structure Scope where
  depth : Nat
deriving DecidableEq, Inhabited

namespace Stack

abbrev StackM := EStateM Fault Stack

def ofExtent (base capacity : Nat) : Stack := ⟨base, capacity, base, [], true⟩

def used (s : Stack) : Nat := s.top - s.base

def remaining (s : Stack) : Nat := s.capacity - s.used

def depth (s : Stack) : Nat := s.frames.length

def limit (s : Stack) : Nat := s.base + s.capacity

def push : StackM Unit := modify fun s => { s with frames := s.top :: s.frames }

def pop : StackM Unit := fun s =>
  match s.frames with
  | [] => .error .unmatchedPop s
  | saved :: frames => .ok () { s with top := saved, frames }

def scope : StackM Scope := do
  push
  return ⟨(← get).depth⟩

def isInnermost (s : Stack) (scope : Scope) : Bool := s.depth == scope.depth

/-- Closes the frame of a scope. -/
def close (scope : Scope) : StackM Unit := do
  let s ← get
  if s.isInnermost scope then pop else throw (.releasedOutOfOrder scope.depth s.depth)

/-- Closes the frame of a scope if it is the innermost one, and lets it be otherwise. -/
def closeQuietly (scope : Scope) : StackM Unit := do
  if (← get).isInnermost scope then pop

def allocate (size alignment : Nat) : StackM Nat := fun s =>
  if !s.live then .error .stackReleased s
  else if !isPowerOfTwo alignment then .error (.alignmentNotPower alignment) s
  else
    let start := alignUp s.top alignment
    let stop := endOf start size
    if s.limit < stop then
      .error (.stackOverflow size alignment (s.limit - min start s.limit) s.capacity) s
    else .ok start { s with top := stop }

/-- Gives the extent back; what comes after faults. -/
def release (s : Stack) : Stack := { s with live := false }

end Stack

/-- A stack and the memory it hands out. -/
structure Arena where
  stack : Stack
  memory : Memory

namespace Arena

abbrev ArenaM := EStateM Fault Arena

/-- The alignment of an extent, and of the first entry of an argument buffer. -/
def extentAlignment : Nat := 16

/-- Where an extent of its own begins. -/
def extentBase : Nat := Nat.pow 2 20

/-- A stack with an extent of its own, all of it zero. -/
def ofCapacity (capacity : Nat) : Arena := ⟨.ofExtent extentBase capacity, .blank⟩

instance : Inhabited Arena := ⟨ofCapacity 0⟩

/-- A stack with an extent that has to be asked for. -/
def withCapacity (capacity : Nat) : Except Fault Arena :=
  if isRequest capacity extentAlignment then .ok (ofCapacity capacity)
  else .error (.invalidAllocation capacity extentAlignment)

def onStack {α : Type} (op : Stack.StackM α) : ArenaM α := fun a =>
  match op a.stack with
  | .ok x stack => .ok x { a with stack }
  | .error e stack => .error e { a with stack }

def onMemory {α : Type} (op : EStateM Fault Memory α) : ArenaM α := fun a =>
  match op a.memory with
  | .ok x memory => .ok x { a with memory }
  | .error e memory => .error e { a with memory }

/-- A new block with as much of an old one as was in use and fits; the old one stays. -/
def reallocate (old : Option Nat) (size alignment : Nat) : ArenaM Nat := do
  let top := (← get).stack.top
  let fresh ← onStack (Stack.allocate size alignment)
  match old with
  | none => return fresh
  | some address =>
    modify fun a => { a with memory := a.memory.copy fresh address (min size (top - address)) }
    return fresh

end Arena

end NativeBridge
