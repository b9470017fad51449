/-! # Primitive kinds

The seventeen kinds of primitive types, in the order of their ordinals. A kind has a name for people,
a one-letter code for mangled names, and a size; the alignment is the size, except that `void` is empty
and aligned to one. Sizes are those of a machine with 64-bit words.
-/
namespace NativeBridge

inductive Kind
  | void | byte | short | int | long | nint
  | ubyte | ushort | uint | ulong | nuint
  | float | double | nfloat | bool | char | pointer
deriving DecidableEq, Inhabited

namespace Kind

def all : List Kind :=
  [void, byte, short, int, long, nint, ubyte, ushort, uint, ulong, nuint,
    float, double, nfloat, bool, char, pointer]

def ordinal : Kind → Nat
  | void => 0 | byte => 1 | short => 2 | int => 3 | long => 4 | nint => 5
  | ubyte => 6 | ushort => 7 | uint => 8 | ulong => 9 | nuint => 10
  | float => 11 | double => 12 | nfloat => 13 | bool => 14 | char => 15 | pointer => 16

def ofOrdinal? (n : Nat) : Option Kind := all[n]?

@[simp] theorem ofOrdinal?_ordinal (k : Kind) : ofOrdinal? k.ordinal = some k := by
  cases k <;> rfl

theorem ordinal_lt (k : Kind) : k.ordinal < 17 := by cases k <;> decide

theorem ordinal_of_ofOrdinal? {n : Nat} {k : Kind} (h : ofOrdinal? n = some k) :
    k.ordinal = n := by
  match n, h with
  | 0, h | 1, h | 2, h | 3, h | 4, h | 5, h | 6, h | 7, h | 8, h | 9, h | 10, h | 11, h
  | 12, h | 13, h | 14, h | 15, h | 16, h => cases h; rfl
  | n + 17, h => simp [ofOrdinal?, all] at h

def name : Kind → String
  | void => "void" | byte => "byte" | short => "short" | int => "int" | long => "long"
  | nint => "nint" | ubyte => "ubyte" | ushort => "ushort" | uint => "uint"
  | ulong => "ulong" | nuint => "nuint" | float => "float" | double => "double"
  | nfloat => "nfloat" | bool => "bool" | char => "char" | pointer => "pointer"

def ofName? (s : String) : Option Kind := all.find? fun k => k.name == s

@[simp] theorem ofName?_name (k : Kind) : ofName? k.name = some k := by
  cases k <;> decide

/-- The letter of a kind in mangled names, `a` for `void` through `q` for `pointer`. -/
def code (k : Kind) : Char := Char.ofNat ('a'.toNat + k.ordinal)

def ofCode? (c : Char) : Option Kind :=
  if 'a' ≤ c ∧ c ≤ 'z' then ofOrdinal? (c.toNat - 'a'.toNat) else none

@[simp] theorem ofCode?_code (k : Kind) : ofCode? k.code = some k := by
  cases k <;> decide

theorem code_of_ofCode? {c : Char} {k : Kind} (h : ofCode? c = some k) : k.code = c := by
  unfold ofCode? at h
  split at h
  · rename_i hc
    have ha : 'a'.toNat ≤ c.toNat := hc.1
    rw [code, ordinal_of_ofOrdinal? h, Nat.add_sub_cancel' ha, Char.ofNat_toNat]
  · cases h

def wordSize : Nat := 8

def size : Kind → Nat
  | void => 0
  | byte | ubyte | bool => 1
  | short | ushort | char => 2
  | int | uint | float => 4
  | long | ulong | double => 8
  | nint | nuint | nfloat | pointer => wordSize

def alignment (k : Kind) : Nat := max k.size 1

def isInteger : Kind → Bool
  | byte | short | int | long | nint | ubyte | ushort | uint | ulong | nuint => true
  | _ => false

def isFloating : Kind → Bool
  | float | double | nfloat => true
  | _ => false

theorem size_le_wordSize (k : Kind) : k.size ≤ wordSize := by cases k <;> decide

theorem alignment_pos (k : Kind) : 0 < k.alignment := by cases k <;> decide

end Kind

instance : ToString Kind := ⟨Kind.name⟩

end NativeBridge
