import NativeBridge.Wire.Encode
import NativeBridge.Wire.Error

/-! # Decoding

A reader is a cursor over bytes that also counts the levels of nesting it is in and notes the raw
symbol identifiers it meets. A decoder moves a reader forward and gives a value or a fault, and the
reader it leaves behind is there in both cases: a fault in the middle of a value does not undo what
was read before it.
-/
namespace NativeBridge.Wire

/-- A cursor: the bytes ahead, the number of bytes behind, the nesting level, and the raw
identifiers met so far, the latest first. -/
structure Reader where
  rest : Bytes
  position : Nat
  depth : Nat
  ids : List UInt32
deriving DecidableEq, Inhabited

def Reader.ofBytes (bytes : Bytes) : Reader := ⟨bytes, 0, 0, []⟩

def Reader.remaining (r : Reader) : Nat := r.rest.length

/-- The places that are set aside for `n` items before the first is read: no more than bytes are left,
as each item takes a byte at least. -/
def Reader.capacity (r : Reader) (n : Nat) : Nat := (r.rest.take n).length

theorem Reader.capacity_eq (r : Reader) (n : Nat) : r.capacity n = min n r.remaining :=
  List.length_take

abbrev Decoder := EStateM DecodeError Reader

namespace Decoder

variable {α : Type}

def position : Decoder Nat := do return (← get).position

/-- Whether a list has at least `n` elements, without counting further. -/
def hasAtLeast (n : Nat) (xs : List α) : Bool := n == 0 || !(xs.drop (n - 1)).isEmpty

theorem hasAtLeast_iff {n : Nat} {xs : List α} : hasAtLeast n xs = true ↔ n ≤ xs.length := by
  simp only [hasAtLeast, Bool.or_eq_true, beq_iff_eq, Bool.not_eq_true', List.isEmpty_eq_false_iff,
    ne_eq, List.drop_eq_nil_iff]
  omega

def take (n : Nat) : Decoder Bytes := fun r =>
  if hasAtLeast n r.rest then
    .ok (r.rest.take n) { r with rest := r.rest.drop n, position := r.position + n }
  else .error (.unexpectedEnd r.position n r.remaining) r

/-- The next byte, left where it is. -/
def peek : Decoder UInt8 := fun r =>
  match r.rest with
  | [] => .error (.unexpectedEnd r.position 1 0) r
  | b :: _ => .ok b r

def byte : Decoder UInt8 := fun r =>
  match r.rest with
  | [] => .error (.unexpectedEnd r.position 1 0) r
  | b :: rest => .ok b { r with rest, position := r.position + 1 }

/-- The number that bytes write, the most significant first. -/
def bigEndian (bytes : Bytes) : Nat := bytes.foldl (fun n b => n * 256 + b.toNat) 0

def word : Decoder UInt32 := do return UInt32.ofNat (bigEndian (← take 4))

def int : Decoder Int32 := do return (← word).toInt32

def length : Decoder Nat := do return (← word).toNat

def flag : Decoder Bool := do
  let offset ← position
  match ← byte with
  | 0 => return false
  | 1 => return true
  | b => throw (.invalidFlag offset b)

def text : Decoder String := do
  let n ← length
  let offset ← position
  match Text.ofUtf8 (← take n) with
  | .ok s => return s
  | .error fault => throw (.invalidText offset fault)

/-- Consumes a byte that must be the tag of `what`. -/
def tag (what : String) (expected : UInt8) : Decoder Unit := do
  let offset ← position
  let found ← byte
  if found ≠ expected then throw (.tagMismatch what offset expected found)

/-- Goes one level deeper, up to the limit of nesting. -/
def enter : Decoder Unit := fun r =>
  if maxNesting ≤ r.depth then .error (.nestingTooDeep r.position) r
  else .ok () { r with depth := r.depth + 1 }

def leave : Decoder Unit := modify fun r => { r with depth := r.depth - 1 }

/-- Runs a decoder and leaves one level behind it, whether it succeeds or not. -/
def leaving (d : Decoder α) : Decoder α := fun r =>
  match d r with
  | .ok a s => .ok a { s with depth := s.depth - 1 }
  | .error e s => .error e { s with depth := s.depth - 1 }

def noteId (raw : UInt32) : Decoder Unit := modify fun r => { r with ids := raw :: r.ids }

/-- Fails where input is left. -/
def finish : Decoder Unit := fun r =>
  if r.rest.isEmpty then .ok () r else .error (.trailingBytes r.remaining) r

/-- Reads `n` items and puts them behind those of `acc`. -/
def items (item : Decoder α) : Nat → Array α → Decoder (List α)
  | 0, acc => return acc.toList
  | n + 1, acc => do
    let a ← item
    items item n (acc.push a)

/-- Reads a list into places that are set aside for its items. -/
def list (item : Decoder α) : Decoder (List α) := do
  let n ← length
  let places := Array.emptyWithCapacity ((← get).capacity n)
  items item n places

/-- What is set aside makes no difference to what is read. -/
theorem list_eq (item : Decoder α) : list item = (do items item (← length) #[]) := rfl

def optional (item : Decoder α) : Decoder (Option α) := do
  if ← flag then return some (← item) else return none

/-- A complete input: one value and nothing behind it. -/
def whole (d : Decoder α) : Decoder α := do
  let a ← d
  finish
  return a

end Decoder

/-- What a complete input gives, and the raw identifiers met on the way, the latest first. -/
def decodeAll {α : Type} (d : Decoder α) (bytes : Bytes) : Except DecodeError α × List UInt32 :=
  match d.whole (.ofBytes bytes) with
  | .ok a r => (.ok a, r.ids)
  | .error e r => (.error e, r.ids)

end NativeBridge.Wire
