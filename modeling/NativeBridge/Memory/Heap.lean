import NativeBridge.Memory.Address
import NativeBridge.Memory.Basic

/-! # The heap

Blocks of the process, each at its own address and with its own size. A block is placed behind all
blocks there ever were, so that live blocks never meet. Resizing looks for
room first and at the alignment then; it moves a block and keeps as much of it as fits.
-/
namespace NativeBridge

structure Block where
  address : Nat
  size : Nat
deriving DecidableEq

structure Heap where
  memory : Memory
  next : Nat
  blocks : List Block

namespace Heap

abbrev HeapM := EStateM Fault Heap

/-- The address of the first block. -/
def firstAddress : Nat := Nat.pow 2 20

def empty : Heap := ⟨.blank, firstAddress, []⟩

/-- A block where no block was before. -/
def place (size alignment : Nat) : HeapM Nat := fun h =>
  let address := alignUp h.next alignment
  .ok address { h with
    next := address + max size 1
    blocks := ⟨address, size⟩ :: h.blocks }

def allocate (size alignment : Nat) : HeapM Nat := do
  if !isPowerOfTwo alignment then throw (.alignmentNotPower alignment)
  let alignment := max alignment Kind.wordSize
  if !isRequest size alignment then throw (.invalidAllocation size alignment)
  place size alignment

def sizeOf (h : Heap) (address : Nat) : Nat :=
  ((h.blocks.find? fun b => b.address == address).map Block.size).getD 0

def free (address : Nat) : HeapM Unit := modify fun h =>
  { h with blocks := h.blocks.filter fun b => b.address ≠ address }

/-- The alignment of blocks that are resized. -/
def resizeAlignment : Nat := 16

/-- A block of another size with the bytes of the old one, which is given up; without an old block,
a new one. -/
def reallocate (old : Option Nat) (size alignment : Nat) : HeapM Nat := do
  match old with
  | none => allocate size alignment
  | some address =>
    if hopelessSize ≤ size then throw (.invalidAllocation size alignment)
    if alignment = 0 then throw .remainderByZero
    if !isPowerOfTwo alignment then throw (.alignmentNotPower alignment)
    if !isRequest size alignment then throw (.invalidAllocation size alignment)
    let kept := min size ((← get).sizeOf address)
    let fresh ← place size (max alignment resizeAlignment)
    modify fun h => { h with memory := h.memory.copy fresh address kept }
    free address
    return fresh

end Heap

end NativeBridge
