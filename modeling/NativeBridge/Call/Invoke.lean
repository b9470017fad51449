import NativeBridge.Call.Buffer

/-! # Calls into native code

Native code takes the bytes of its arguments and gives a word, of which a result takes as many low
bytes as its kind has. A call is made from a buffer whose entries match the descriptor one by one.
An invocation opens a buffer, fills it, calls, and closes the buffer again whatever happens; a
fault on the way closes it only if no later frame is in the way.
-/
namespace NativeBridge

/-- A thread: its arena, and whatever else the users of calls keep. -/
structure Thread (σ : Type) where
  arena : Arena
  own : σ

abbrev ThreadM (σ : Type) := EStateM Failure (Thread σ)

/-- An argument as it is handed over. -/
structure Passed where
  kind : CallKind
  bytes : List UInt8
deriving DecidableEq

/-- Native code behind an address. -/
abbrev NativeCode (σ : Type) := List Passed → ThreadM σ Nat

namespace Call

variable {σ α : Type}

def checkEntries (d : Descriptor) : Nat → List Tag → List CallKind → Option Mismatch
  | index, t :: ts, k :: ks =>
    if t.count ≠ 1 then some (.array index t.count t.kind)
    else if t.kind ≠ k then some (.kind index t.kind k d)
    else checkEntries d (index + 1) ts ks
  | _, _, _ => none

/-- How the entries of a buffer differ from what a descriptor asks for, if they do. -/
def mismatch? (d : Descriptor) (tags : List Tag) : Option Mismatch :=
  if tags.length ≠ d.parameters.length then some (.count tags.length d)
  else checkEntries d 0 tags d.parameters

/-- The value of a kind in the low bytes of a word. -/
def decodeWord (k : CallKind) (word : Nat) : Value := Value.ofBytes k (Value.littleEndian 8 word)

/-- The arguments of a call: the bytes at the addresses of the entries. -/
def passed (d : Descriptor) (f : Frame σ) : List Passed :=
  (d.parameters.zip f.buffer.addresses).map fun (k, address) =>
    ⟨k, f.arena.memory.read address k.size⟩

/-- Runs a thread's action while a buffer is open. -/
def onThread (op : ThreadM σ α) : BufferM σ α := fun f =>
  match op ⟨f.arena, f.own⟩ with
  | .ok a t => .ok a { f with arena := t.arena, own := t.own }
  | .error e t => .error e { f with arena := t.arena, own := t.own }

/-- Calls with the entries of the open buffer; there is no code behind the null address. -/
def callValue (code : Option (NativeCode σ)) (d : Descriptor) : BufferM σ Value := do
  match code with
  | none => throw (.fault .nullFunction)
  | some code =>
    let f ← get
    match mismatch? d f.buffer.tags with
    | some m => throw (.error (.signatureMismatch m))
    | none =>
      let word ← onThread (code (passed d f))
      return decodeWord d.returns word

/-- Calls for a result of the kind that the caller asks for. -/
def call (code : Option (NativeCode σ)) (requested : CallKind) (d : Descriptor) : BufferM σ Value := do
  if d.returns ≠ requested then throw (.error (.returnKindMismatch requested d.returns))
  else
    let v ← callValue code d
    match v.ofKind? requested with
    | some result => return result
    | none => throw (.error (.returnKindMismatch requested d.returns))

def onArena (op : Arena.ArenaM α) : ThreadM σ α := fun t =>
  match op t.arena with
  | .ok a arena => .ok a { t with arena }
  | .error e arena => .error (.fault e) { t with arena }

/-- Runs an action with a buffer of its own. -/
def withBuffer (body : BufferM σ α) : ThreadM σ α := fun t =>
  match ArgumentBuffer.acquire t.arena with
  | .error e arena => .error (.fault e) { t with arena }
  | .ok buffer arena =>
    match body ⟨arena, buffer, t.own⟩ with
    | .ok a f =>
      match f.buffer.release f.arena with
      | .ok _ arena => .ok a ⟨arena, f.own⟩
      | .error e arena => .error (.fault e) ⟨arena, f.own⟩
    | .error (.error e) f =>
      match f.buffer.release f.arena with
      | .ok _ arena => .error (.error e) ⟨arena, f.own⟩
      | .error e arena => .error (.fault e) ⟨arena, f.own⟩
    | .error (.fault e) f =>
      match f.buffer.releaseQuietly f.arena with
      | .ok _ arena => .error (.fault e) ⟨arena, f.own⟩
      | .error _ arena => .error (.fault e) ⟨arena, f.own⟩

/-- Fills a buffer and calls for a result of any kind. -/
def invokeValue (code : Option (NativeCode σ)) (d : Descriptor) (populate : BufferM σ Unit) :
    ThreadM σ Value :=
  withBuffer do
    populate
    callValue code d

/-- Fills a buffer and calls for a result of the kind that the caller asks for. -/
def invoke (code : Option (NativeCode σ)) (requested : CallKind) (d : Descriptor)
    (populate : BufferM σ Unit) : ThreadM σ Value :=
  withBuffer do
    populate
    call code requested d

end Call

end NativeBridge
