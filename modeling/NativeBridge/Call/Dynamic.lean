import NativeBridge.Call.Buffer

/-! # Values of any type

A list of values of any type is put as a whole or not at all: every value is classified before the
first is put, and the first for whose type there is no rule is reported. Of which type a value is shows
only when the program runs, where it is asked for one type after the other. Scalars and pointers become
entries of one value, lists of scalars entries of as many; the values of a list are laid out in a row
of bytes of their own, which is then copied into the buffer.
-/
namespace NativeBridge

/-- The types of values that have a form in memory: one for each kind, and pointers through which
nothing is written. The type for `void` has just one value. -/
inductive PlainType
  | ofKind (k : CallKind)
  | constPointer
deriving DecidableEq

def PlainType.kind : PlainType → CallKind
  | ofKind k => k
  | constPointer => .pointer

/-- The values of a plain type. -/
abbrev PlainType.Carrier (p : PlainType) : Type := {v : Value // v.kind = p.kind}

/-- Types as they are told apart when the program runs; all that no rule asks for are numbered. -/
inductive RuntimeType
  | plain (p : PlainType)
  | list (element : RuntimeType)
  | boxed (element : RuntimeType)
  | dynamic
  | bytePointer
  | constBytePointer
  | string
  | text
  | character
  | wideInt
  | wideUint
  | other (number : Nat)
deriving DecidableEq

/-- The values of a type; those of types that no rule asks for do not matter. -/
abbrev RuntimeType.Carrier : RuntimeType → Type
  | plain p => p.Carrier
  | list t => List t.Carrier
  | boxed t => List t.Carrier
  | dynamic => Value
  | bytePointer | constBytePointer => {v : Value // v.kind = .pointer}
  | string | text => String
  | character => Char
  | wideInt | wideUint => BitVec 128
  | other _ => Unit

/-- A value together with its type. -/
structure Offered where
  type : RuntimeType
  value : type.Carrier

/-- What will be put: one value, or the row of bytes of so many of a kind. -/
inductive Classified
  | scalar (v : Value)
  | array (kind : CallKind) (bytes : List UInt8) (count : Nat)
deriving DecidableEq

/-- Writes values over a row of bytes, each `size` bytes behind the one before it. -/
def overwrite (size : Nat) : List Value → List UInt8 → List UInt8
  | [], row => row
  | v :: vs, row =>
    let written := v.bytes ++ row.drop v.bytes.length
    written.take size ++ overwrite size vs (written.drop size)

/-- The values of a kind in a row that was all zero. -/
def rowOf (k : CallKind) (vs : List Value) : List UInt8 :=
  overwrite k.size vs (List.replicate (k.size * vs.length) 0)

def PlainType.row (p : PlainType) (vs : List p.Carrier) : Classified :=
  .array p.kind (rowOf p.kind (vs.map Subtype.val)) vs.length

namespace RuntimeType

/-- The plain types that are asked for, in this order. -/
def asked : List PlainType :=
  [.ofKind .byte, .ofKind .short, .ofKind .int, .ofKind .long, .ofKind .nint, .ofKind .ubyte,
    .ofKind .ushort, .ofKind .uint, .ofKind .ulong, .ofKind .nuint, .ofKind .float, .ofKind .double,
    .ofKind .nfloat, .ofKind .bool, .ofKind .char, .ofKind .pointer, .constPointer]

/-- The name of a type that has no rule, where there is a better one than the text of its number. -/
def describe (idText : RuntimeType → String) : RuntimeType → String
  | string => "String"
  | text => "&str"
  | character => "char"
  | wideInt | wideUint => "128-bit integer"
  | plain (.ofKind .void) => "()"
  | t => idText t

end RuntimeType

namespace Offered

/-- The value, if it is of the type that is asked for. -/
def downcast? (o : Offered) (t : RuntimeType) : Option t.Carrier :=
  if h : o.type = t then some (h ▸ o.value) else none

/-- What will be put for a value of a plain type, or for a list of such values. -/
def asPlain? (o : Offered) (p : PlainType) : Option Classified :=
  match o.downcast? (.plain p) with
  | some v => some (.scalar v.1)
  | none =>
    match o.downcast? (.list (.plain p)) with
    | some vs => some (p.row vs)
    | none =>
      match o.downcast? (.boxed (.plain p)) with
      | some vs => some (p.row vs)
      | none => none

/-- What will be put for a value whose type is none of the plain ones. -/
def classifyOther (idText : RuntimeType → String) (index : Nat) (o : Offered) :
    Except CallError Classified :=
  match o.downcast? .dynamic with
  | some v =>
    if Value.kind v = .void then .error (.unsupportedValue index CallKind.void.name)
    else .ok (.scalar v)
  | none =>
    match o.downcast? .bytePointer with
    | some v => .ok (.scalar v.1)
    | none =>
      match o.downcast? .constBytePointer with
      | some v => .ok (.scalar v.1)
      | none => .error (.unsupportedValue index (o.type.describe idText))

def classify (idText : RuntimeType → String) (index : Nat) (o : Offered) :
    Except CallError Classified :=
  match RuntimeType.asked.findSome? o.asPlain? with
  | some c => .ok c
  | none => o.classifyOther idText index

/-- What will be put for all values, or the first that has no rule, counted from `index`. -/
def classifyAll (idText : RuntimeType → String) (index : Nat) :
    List Offered → Except CallError (List Classified)
  | [] => .ok []
  | o :: os => do
    let c ← o.classify idText index
    let cs ← classifyAll idText (index + 1) os
    return c :: cs

end Offered

namespace BufferM

variable {σ : Type}

def putClassified : Classified → BufferM σ Unit
  | .scalar v => putValue v
  | .array k bytes count => append ⟨k, count⟩ bytes

def putAllClassified : List Classified → BufferM σ Unit
  | [] => return ()
  | c :: cs => do
    putClassified c
    putAllClassified cs

/-- Puts values of any type; `idText` is how the type of a value is written that has no name here. -/
def putAll (idText : RuntimeType → String) (os : List Offered) : BufferM σ Unit :=
  match Offered.classifyAll idText 0 os with
  | .error e => throw (.error e)
  | .ok cs => putAllClassified cs

end BufferM

end NativeBridge
