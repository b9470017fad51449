import NativeBridge.Binary.Format
import NativeBridge.Call.Kind

/-! # Native values

A value is a kind and one of the patterns of bits that the kind can hold: as many as fit its size,
except that `bool` has two. The same patterns stand for numbers of either sign, for UTF-16 units,
for addresses and for floating-point data. In memory a value is its pattern with the lowest byte
first; any byte but zero reads as true.
-/
namespace NativeBridge

namespace CallKind

/-- The number of patterns of a kind. -/
def patterns (k : CallKind) : Nat := if k = bool then 2 else Nat.pow 2 (8 * k.size)

theorem patterns_pos (k : CallKind) : 0 < k.patterns := by cases k <;> decide

/-- The pattern that a number of any size leaves in a kind. -/
def pattern (k : CallKind) (n : Nat) : Nat :=
  if k = bool then if n = 0 then 0 else 1 else n % Nat.pow 2 (8 * k.size)

theorem pattern_lt (k : CallKind) (n : Nat) : k.pattern n < k.patterns := by
  unfold pattern patterns
  split
  · split <;> decide
  · exact Nat.mod_lt _ (Nat.two_pow_pos _)

theorem pattern_of_lt {k : CallKind} {n : Nat} (h : n < k.patterns) : k.pattern n = n := by
  unfold pattern
  unfold patterns at h
  split
  · rename_i hk; rw [if_pos hk] at h; split <;> omega
  · rename_i hk; rw [if_neg hk] at h; exact Nat.mod_eq_of_lt h

def format? : CallKind → Option Binary.Format
  | float => some Binary.single
  | double | nfloat => some Binary.double
  | _ => none

end CallKind

structure Value where
  kind : CallKind
  bits : Nat
  bits_lt : bits < kind.patterns
deriving DecidableEq

namespace Value

def ofBits (k : CallKind) (n : Nat) : Value := ⟨k, k.pattern n, k.pattern_lt n⟩

@[simp] theorem kind_ofBits (k : CallKind) (n : Nat) : (ofBits k n).kind = k := rfl

theorem ofBits_bits (v : Value) : ofBits v.kind v.bits = v := by
  cases v with
  | mk k n h => simp [ofBits, CallKind.pattern_of_lt h]

def zero (k : CallKind) : Value := ofBits k 0

def void : Value := zero .void

instance : Inhabited Value := ⟨void⟩

/-- The value of a kind that an integer leaves when it is cut to the kind's width. -/
def ofInt (k : CallKind) (z : Int) : Value :=
  if k = .bool then ofBits k z.natAbs else ofBits k (z % (Nat.pow 2 (8 * k.size) : Nat)).toNat

def ofBool (b : Bool) : Value := ofBits .bool b.toNat

/-- The value for one who takes values of just one kind. -/
def ofKind? (v : Value) (k : CallKind) : Option Value := if v.kind = k then some v else none

/-- The number of an integer, bool, char or pointer. -/
def integer? (v : Value) : Option Int :=
  if v.kind.isSigned then
    some (if 2 * v.bits < v.kind.patterns then v.bits else v.bits - v.kind.patterns)
  else match v.kind with
    | .void | .float | .double | .nfloat => none
    | _ => some v.bits

/-- The bits of a number as a double; pointers and `void` are no numbers. -/
def double? (v : Value) : Option Nat :=
  match v.kind.format? with
  | some f => some (Binary.convert f Binary.double v.bits)
  | none =>
    if v.kind = .pointer then none else v.integer?.map (Binary.ofInt Binary.double)

/-- `size` bytes of a number, the lowest first. -/
def littleEndian : Nat → Nat → List UInt8
  | 0, _ => []
  | size + 1, n => UInt8.ofNat (n % 256) :: littleEndian size (n / 256)

/-- The number that bytes write, the lowest first. -/
def ofLittleEndian : List UInt8 → Nat
  | [] => 0
  | b :: bs => b.toNat + 256 * ofLittleEndian bs

/-- The bytes of a value in memory. -/
def bytes (v : Value) : List UInt8 := littleEndian v.kind.size v.bits

/-- The value of a kind that bytes in memory hold. -/
def ofBytes (k : CallKind) (bs : List UInt8) : Value := ofBits k (ofLittleEndian (bs.take k.size))

@[simp] theorem length_littleEndian (size n : Nat) : (littleEndian size n).length = size := by
  induction size generalizing n with
  | zero => rfl
  | succ size ih => simp [littleEndian, ih]

@[simp] theorem length_bytes (v : Value) : v.bytes.length = v.kind.size := by simp [bytes]

theorem ofLittleEndian_littleEndian (size n : Nat) :
    ofLittleEndian (littleEndian size n) = n % Nat.pow 256 size := by
  induction size generalizing n with
  | zero => simp [littleEndian, ofLittleEndian, Nat.mod_one]
  | succ size ih =>
    have h : (UInt8.ofNat (n % 256)).toNat = n % 256 := by simp
    have hp : Nat.pow 256 (size + 1) = 256 * Nat.pow 256 size := Nat.pow_succ'
    rw [littleEndian, ofLittleEndian, ih, h, hp, Nat.mod_mul]

theorem patterns_le (k : CallKind) : k.patterns ≤ Nat.pow 256 k.size := by cases k <;> decide

/-- A value is read back from the bytes it was written as. -/
theorem ofBytes_bytes (v : Value) : ofBytes v.kind v.bytes = v := by
  have h : v.bytes.take v.kind.size = v.bytes := List.take_of_length_le (by simp)
  have hlt := Nat.lt_of_lt_of_le v.bits_lt (patterns_le v.kind)
  rw [ofBytes, h, bytes, ofLittleEndian_littleEndian, Nat.mod_eq_of_lt hlt, ofBits_bits]

end Value

/-! UTF-16 units are the characters of the basic plane, less the surrogates. -/

def unitOfChar? (c : Char) : Option Nat := if c.toNat < Nat.pow 2 16 then some c.toNat else none

def charOfUnit? (n : Nat) : Option Char :=
  if n.isValidChar then some (Char.ofNat n) else none

end NativeBridge
