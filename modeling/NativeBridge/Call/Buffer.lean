import NativeBridge.Call.Descriptor
import NativeBridge.Memory.Stack

/-! # Argument buffers

An argument buffer is a frame of a stack that holds values one behind the other without padding,
each described by its kind and count. Values are put at the top of the stack while the frame is the
innermost one and nothing else was handed out in it; where an entry is read follows from the sizes
of the entries before it. A cursor reads entries in order, and other reading leaves it alone.
-/
namespace NativeBridge

/-- The kind and the number of the values of an entry. -/
structure Tag where
  kind : CallKind
  count : Nat
deriving DecidableEq, Inhabited

def Tag.size (t : Tag) : Nat := t.kind.size * t.count

structure ArgumentBuffer where
  scope : Scope
  base : Nat
  tags : List Tag
  size : Nat
  readIndex : Nat
  readOffset : Nat
deriving DecidableEq, Inhabited

namespace ArgumentBuffer

/-- The sum of the sizes of entries. -/
def extent : List Tag → Nat
  | [] => 0
  | t :: ts => t.size + extent ts

/-- The address of an entry, or the end for the index behind the last. -/
def address (b : ArgumentBuffer) (index : Nat) : Except Fault Nat :=
  if index ≤ b.tags.length then .ok (b.base + extent (b.tags.take index))
  else .error (.argumentIndex index b.tags.length)

/-- Where entries lie that start at `start`. -/
def addressesFrom (start : Nat) : List Tag → List Nat
  | [] => []
  | t :: ts => start :: addressesFrom (start + t.size) ts

/-- The addresses of all entries in order. -/
def addresses (b : ArgumentBuffer) : List Nat := addressesFrom b.base b.tags

def rewound (b : ArgumentBuffer) : ArgumentBuffer := { b with readIndex := 0, readOffset := 0 }

/-- The value of an entry that holds just one. -/
def value? (b : ArgumentBuffer) (m : Memory) (index : Nat) : Option Value :=
  match b.tags[index]? with
  | none => none
  | some t =>
    if t.count = 1 then some (m.readValue (b.base + extent (b.tags.take index)) t.kind) else none

/-- The bytes of the buffer. -/
def contents (b : ArgumentBuffer) (m : Memory) : List UInt8 := m.read b.base b.size

end ArgumentBuffer

/-- A buffer that is open on a thread: its arena, the buffer, and whatever else its users keep. -/
structure Frame (σ : Type) where
  arena : Arena
  buffer : ArgumentBuffer
  own : σ

abbrev BufferM (σ : Type) := EStateM Failure (Frame σ)

namespace BufferM

variable {σ α : Type}

def onArena (op : Arena.ArenaM α) : BufferM σ α := fun f =>
  match op f.arena with
  | .ok a arena => .ok a { f with arena }
  | .error e arena => .error (.fault e) { f with arena }

def onStack (op : Stack.StackM α) : BufferM σ α := onArena (Arena.onStack op)

def onMemory (op : EStateM Fault Memory α) : BufferM σ α := onArena (Arena.onMemory op)

def fault (cause : Fault) : BufferM σ α := throw (.fault cause)

/-- Adds an entry and gives the address of its bytes. They are the next ones at the top of the stack,
which must be where the entries before it end. -/
def reserve (tag : Tag) : BufferM σ Nat := do
  let f ← get
  if !f.arena.stack.isInnermost f.buffer.scope then fault .nestedFrameOpen
  let address ← onStack (Stack.allocate tag.size 1)
  let expected := f.buffer.base + f.buffer.size
  if address ≠ expected then fault (.entryMisplaced address expected)
  modify fun f => { f with
    buffer := { f.buffer with tags := f.buffer.tags ++ [tag], size := f.buffer.size + tag.size } }
  return address

/-- Adds an entry and copies its bytes there. -/
def append (tag : Tag) (bytes : List UInt8) : BufferM σ Unit := do
  let address ← reserve tag
  onMemory (modify fun m => m.write address bytes)

/-- Puts one value of its own kind, `void` included. -/
def put (v : Value) : BufferM σ Unit := append ⟨v.kind, 1⟩ v.bytes

/-- Puts values of one kind as one entry, one after the other. -/
def putArray (k : CallKind) (vs : List Value) : BufferM σ Unit := do
  let address ← reserve ⟨k, vs.length⟩
  onMemory (Memory.storeEach address k.size 0 vs)

/-- Puts one value that must not be `void`. -/
def putValue (v : Value) : BufferM σ Unit := do
  if v.kind = .void then
    throw (.error (.unsupportedValue (← get).buffer.tags.length CallKind.void.name))
  else put v

/-- Puts the bytes of one value as they are. -/
def putRaw (k : CallKind) (bytes : List UInt8) : BufferM σ Unit := append ⟨k, 1⟩ bytes

def rewind : BufferM σ Unit := modify fun f => { f with buffer := f.buffer.rewound }

/-- Moves the cursor over the next entry, which must be of the expected kind, and gives its tag and
its address. -/
def nextEntry (expected : CallKind) : BufferM σ (Tag × Nat) := do
  let b := (← get).buffer
  match b.tags[b.readIndex]? with
  | none => fault (.argumentsExhausted b.tags.length)
  | some t =>
    if t.kind ≠ expected then fault (.argumentKind b.readIndex t.kind expected)
    modify fun f => { f with buffer := { f.buffer with
      readIndex := f.buffer.readIndex + 1, readOffset := f.buffer.readOffset + t.size } }
    return (t, b.base + b.readOffset)

/-- Reads the next entry, which must hold one value. -/
def getNext (k : CallKind) : BufferM σ Value := do
  let (t, address) ← nextEntry k
  let f ← get
  if t.count ≠ 1 then fault (.argumentIsArray (f.buffer.readIndex - 1))
  return f.arena.memory.readValue address k

/-- Reads all values of the next entry. -/
def getArray (k : CallKind) : BufferM σ (List Value) := do
  let (t, address) ← nextEntry k
  return (← get).arena.memory.readValues address k t.count

def getValue (index : Nat) : BufferM σ (Option Value) := do
  let f ← get
  return f.buffer.value? f.arena.memory index

end BufferM

namespace ArgumentBuffer

/-- Opens a frame with an empty buffer in it; where there is no room the frame is closed again. -/
def acquire : Arena.ArenaM ArgumentBuffer := fun a =>
  match Arena.onStack Stack.scope a with
  | .error e a => .error e a
  | .ok scope a =>
    match Arena.onStack (Stack.allocate 0 Arena.extentAlignment) a with
    | .ok base a => .ok ⟨scope, base, [], 0, 0, 0⟩ a
    | .error e a =>
      match Arena.onStack (Stack.closeQuietly scope) a with
      | .ok _ a => .error e a
      | .error _ a => .error e a

def release (b : ArgumentBuffer) : Arena.ArenaM Unit := Arena.onStack (Stack.close b.scope)

def releaseQuietly (b : ArgumentBuffer) : Arena.ArenaM Unit :=
  Arena.onStack (Stack.closeQuietly b.scope)

end ArgumentBuffer

end NativeBridge
