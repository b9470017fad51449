import NativeBridge.Fault
import NativeBridge.Value.Basic

/-! # Memory

Memory gives a byte at every address. Everything is read and written as a run of bytes: values,
arrays of values, and texts that a zero byte ends. A write changes the bytes it covers and no
others.
-/
namespace NativeBridge

structure Memory where
  byte : Nat → UInt8

namespace Memory

/-- Memory that holds zero everywhere. -/
def blank : Memory := ⟨fun _ => 0⟩

instance : Inhabited Memory := ⟨blank⟩

def read (m : Memory) (address n : Nat) : List UInt8 :=
  (List.range n).map fun i => m.byte (address + i)

def write (m : Memory) (address : Nat) (bytes : List UInt8) : Memory :=
  let stored := bytes.toArray
  ⟨fun x => if x < address then m.byte x else (stored[x - address]?).getD (m.byte x)⟩

theorem byte_write_of_lt {m : Memory} {address x : Nat} {bytes : List UInt8} (h : x < address) :
    (m.write address bytes).byte x = m.byte x := by simp [write, h]

theorem byte_write_of_le {m : Memory} {address x : Nat} {bytes : List UInt8}
    (h : address + bytes.length ≤ x) : (m.write address bytes).byte x = m.byte x := by
  have h1 : ¬ x < address := by omega
  have h2 : bytes.length ≤ x - address := by omega
  simp [write, h1, h2]

@[simp] theorem length_read (m : Memory) (address n : Nat) : (m.read address n).length = n := by
  simp [read]

theorem byte_write (m : Memory) (address : Nat) (bytes : List UInt8) {i : Nat}
    (h : i < bytes.length) : (m.write address bytes).byte (address + i) = bytes[i] := by
  have hlt : ¬ address + i < address := by omega
  have hsub : address + i - address = i := by omega
  simp only [write, if_neg hlt, hsub, List.getElem?_toArray, List.getElem?_eq_getElem h,
    Option.getD_some]

/-- What was written is read back. -/
theorem read_write (m : Memory) (address : Nat) (bytes : List UInt8) :
    (m.write address bytes).read address bytes.length = bytes := by
  apply List.ext_getElem (by simp)
  intro i h1 h2
  simp only [read, List.getElem_map, List.getElem_range]
  exact byte_write m address bytes h2

theorem read_write_of_disjoint (m : Memory) (address start n : Nat) (bytes : List UInt8)
    (h : start + n ≤ address ∨ address + bytes.length ≤ start) :
    (m.write address bytes).read start n = m.read start n := by
  apply List.map_congr_left
  intro i hi
  rw [List.mem_range] at hi
  rcases h with h | h
  · exact byte_write_of_lt (by omega)
  · exact byte_write_of_le (by omega)

def readValue (m : Memory) (address : Nat) (k : CallKind) : Value :=
  Value.ofBytes k (m.read address k.size)

def writeValue (m : Memory) (address : Nat) (v : Value) : Memory := m.write address v.bytes

/-- A value is read back where it was written. -/
theorem readValue_writeValue (m : Memory) (address : Nat) (v : Value) :
    (m.writeValue address v).readValue address v.kind = v := by
  rw [readValue, writeValue, ← Value.length_bytes v, read_write, Value.ofBytes_bytes]

/-- `n` values one behind the other. -/
def readValues (m : Memory) (address : Nat) (k : CallKind) (n : Nat) : List Value :=
  (List.range n).map fun i => m.readValue (address + i * k.size) k

def writeValues (m : Memory) (address : Nat) (vs : List Value) : Memory :=
  m.write address (vs.flatMap Value.bytes)

/-- A range that lies within a list of the given length. -/
def inSlice (first last length : Nat) : Bool := first ≤ last && last ≤ length

/-- Writes elements, the first of them as the one of index `i`. -/
def storeEach (address size : Nat) : Nat → List Value → EStateM Fault Memory Unit
  | _, [] => return ()
  | i, v :: vs => do
    modify fun m => m.writeValue (address + i * size) v
    storeEach address size (i + 1) vs

/-- Writes the elements of `vs` from `first` up to `last`, one after the other. -/
def storeSlice (address : Nat) (k : CallKind) (vs : List Value) (first last : Nat) :
    EStateM Fault Memory Unit := do
  if inSlice first last vs.length then
    storeEach address k.size 0 ((vs.drop first).take (last - first))
  else throw .sliceRange

/-- Reads `n` elements into an array from `first` on, the first of them as the one of index `i`. -/
def loadEach (m : Memory) (address : Nat) (k : CallKind) (first : Nat) :
    Nat → Nat → EStateM Fault (List Value) Unit
  | _, 0 => return ()
  | i, n + 1 => do
    modify fun vs => vs.set (first + i) (m.readValue (address + i * k.size) k)
    loadEach m address k first (i + 1) n

/-- Reads the elements of an array from `first` up to `last`, one after the other. -/
def loadSlice (m : Memory) (address : Nat) (k : CallKind) (first last : Nat) :
    EStateM Fault (List Value) Unit := do
  if inSlice first last (← get).length then loadEach m address k first 0 (last - first)
  else throw .sliceRange

/-- The memory with the values of `vs` from `first` up to `last` written at once. -/
def writeSlice (m : Memory) (address : Nat) (vs : List Value) (first last : Nat) :
    Except Fault Memory :=
  if inSlice first last vs.length then
    .ok (m.writeValues address ((vs.drop first).take (last - first)))
  else .error .sliceRange

/-- The list `vs` with its values from `first` up to `last` replaced by those in memory. -/
def readSlice (m : Memory) (address : Nat) (k : CallKind) (vs : List Value) (first last : Nat) :
    Except Fault (List Value) :=
  if inSlice first last vs.length then
    .ok (vs.take first ++ m.readValues address k (last - first) ++ vs.drop last)
  else .error .sliceRange

def fill (m : Memory) (address : Nat) (b : UInt8) (n : Nat) : Memory :=
  m.write address (List.replicate n b)

/-- Copies `n` bytes, as they were before, also where the two ranges overlap. -/
def copy (m : Memory) (target source n : Nat) : Memory := m.write target (m.read source n)

/-- Byte by byte; where one list ends first, it comes first. -/
def orderBytes : List UInt8 → List UInt8 → Ordering
  | [], [] => .eq
  | [], _ :: _ => .lt
  | _ :: _, [] => .gt
  | a :: as, b :: bs => if a < b then .lt else if b < a then .gt else orderBytes as bs

def compare (m : Memory) (a b n : Nat) : Ordering := orderBytes (m.read a n) (m.read b n)

/-- The address of the first zero, looking at no more than `limit` bytes. -/
def zeroAfter (m : Memory) (address : Nat) : Nat → Nat
  | 0 => address
  | limit + 1 => if m.byte address = 0 then address else zeroAfter m (address + 1) limit

/-- More bytes than a text in memory can have. -/
def textLimit : Nat := Nat.pow 2 64

/-- The length of the text at an address, without the zero that ends it. -/
def textLength (m : Memory) (address : Nat) : Nat := m.zeroAfter address textLimit - address

/-- Copies a text and the zero that ends it. -/
def copyText (m : Memory) (target source : Nat) : Memory :=
  m.copy target source (m.textLength source + 1)

def compareText (m : Memory) (a b : Nat) : Ordering :=
  orderBytes (m.read a (m.textLength a)) (m.read b (m.textLength b))

end Memory

end NativeBridge
