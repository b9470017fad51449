import NativeBridge.Kind

/-! # Kinds of values at a call

What is passed to native code and returned from it has a kind of its own, one for each primitive kind.
The two go over into each other without loss, and size, alignment and name are those of the primitive
kind.
-/
namespace NativeBridge

inductive CallKind
  | void | byte | short | int | long | nint
  | ubyte | ushort | uint | ulong | nuint
  | float | double | nfloat | bool | char | pointer
deriving DecidableEq, Inhabited

namespace CallKind

def all : List CallKind :=
  [void, byte, short, int, long, nint, ubyte, ushort, uint, ulong, nuint,
    float, double, nfloat, bool, char, pointer]

/-- The kind as which values of a primitive kind cross. -/
def ofKind : Kind → CallKind
  | .void => void | .byte => byte | .short => short | .int => int | .long => long | .nint => nint
  | .ubyte => ubyte | .ushort => ushort | .uint => uint | .ulong => ulong | .nuint => nuint
  | .float => float | .double => double | .nfloat => nfloat | .bool => bool | .char => char
  | .pointer => pointer

/-- The primitive kind of what crosses. -/
def toKind : CallKind → Kind
  | void => .void | byte => .byte | short => .short | int => .int | long => .long | nint => .nint
  | ubyte => .ubyte | ushort => .ushort | uint => .uint | ulong => .ulong | nuint => .nuint
  | float => .float | double => .double | nfloat => .nfloat | bool => .bool | char => .char
  | pointer => .pointer

@[simp] theorem toKind_ofKind (k : Kind) : (ofKind k).toKind = k := by cases k <;> rfl

@[simp] theorem ofKind_toKind (k : CallKind) : ofKind k.toKind = k := by cases k <;> rfl

def size (k : CallKind) : Nat := k.toKind.size

def alignment (k : CallKind) : Nat := k.toKind.alignment

def name (k : CallKind) : String := k.toKind.name

def ofName? (s : String) : Option CallKind := (Kind.ofName? s).map ofKind

@[simp] theorem size_ofKind (k : Kind) : (ofKind k).size = k.size := by rw [size, toKind_ofKind]

@[simp] theorem alignment_ofKind (k : Kind) : (ofKind k).alignment = k.alignment := by
  rw [alignment, toKind_ofKind]

@[simp] theorem ofName?_name (k : CallKind) : ofName? k.name = some k := by
  rw [ofName?, name, Kind.ofName?_name, Option.map_some, ofKind_toKind]

def isFloating : CallKind → Bool
  | float | double | nfloat => true
  | _ => false

def isSigned : CallKind → Bool
  | byte | short | int | long | nint => true
  | _ => false

def isUnsigned : CallKind → Bool
  | ubyte | ushort | uint | ulong | nuint => true
  | _ => false

def isInteger (k : CallKind) : Bool := k.isSigned || k.isUnsigned

end CallKind

instance : ToString CallKind := ⟨CallKind.name⟩

end NativeBridge
