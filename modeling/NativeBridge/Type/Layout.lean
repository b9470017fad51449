import NativeBridge.Type.Basic

/-! # Layout

The size of a type over the natural numbers, and the same size as a 64-bit word, absent where it
does not fit. Fields follow each other without padding, so sizes of a struct's fields add up and a
struct can be replaced by its leaves.
-/
namespace NativeBridge.Ty

/-- The number of addresses of the machine. -/
def addressSpace : Nat := Nat.pow 2 64

/-- A size that is a machine word. -/
def fits (n : Nat) : Option Nat := if n < addressSpace then some n else none

mutual

def exactSize : Ty → Nat
  | builtin k => k.size
  | array e d => exactSize e * d.toNat
  | struct _ fs => exactSizes fs
  | reference _ => Kind.wordSize
  | cone g _ => exactSize g

def exactSizes : List Ty → Nat
  | [] => 0
  | t :: ts => exactSize t + exactSizes ts

end

mutual

/-- The size in bytes, unless it or the size of a part exceeds the address space. -/
def checkedSize : Ty → Option Nat
  | builtin k => some k.size
  | array e d => (checkedSize e).bind fun n => fits (n * d.toNat)
  | struct _ fs => checkedTotal 0 fs
  | reference _ => some Kind.wordSize
  | cone g _ => checkedSize g

/-- `total` and the sizes of types, added one after the other. -/
def checkedTotal (total : Nat) : List Ty → Option Nat
  | [] => some total
  | t :: ts => (checkedSize t).bind fun n => (fits (total + n)).bind fun sum => checkedTotal sum ts

end

/-- The size in bytes, or the greatest word where it is greater still. -/
def size (t : Ty) : Nat := t.checkedSize.getD (addressSpace - 1)

mutual

def alignment : Ty → Nat
  | builtin k => k.alignment
  | array e _ => alignment e
  | struct _ fs => alignments fs
  | reference _ => Kind.wordSize
  | cone g _ => alignment g

/-- The greatest alignment of a list of types, at least one. -/
def alignments : List Ty → Nat
  | [] => 1
  | t :: ts => max (alignment t) (alignments ts)

end

mutual

/-- The types that remain when every struct is replaced by its fields, outermost first. -/
def flatten : Ty → List Ty
  | struct _ fs => flattenAll fs
  | cone g as => if isStruct g then flatten g else [cone g as]
  | builtin k => [builtin k]
  | array e d => [array e d]
  | reference n => [reference n]

def flattenAll : List Ty → List Ty
  | [] => []
  | t :: ts => flatten t ++ flattenAll ts

end

mutual

theorem alignment_pos : ∀ t : Ty, 0 < alignment t
  | builtin k => by simp only [alignment]; exact k.alignment_pos
  | array e _ => by simp only [alignment]; exact alignment_pos e
  | struct _ fs => by simp only [alignment]; exact alignments_pos fs
  | reference _ => by simp [alignment, Kind.wordSize]
  | cone g _ => by simp only [alignment]; exact alignment_pos g

theorem alignments_pos : ∀ ts : List Ty, 0 < alignments ts
  | [] => by simp [alignments]
  | t :: ts => by simp only [alignments]; have := alignment_pos t; omega

end

end NativeBridge.Ty
