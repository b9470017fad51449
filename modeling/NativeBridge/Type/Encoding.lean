import NativeBridge.Name.Encoding
import NativeBridge.Type.Layout

/-! # Encoded types

A type is a tag and its parts. Reading refuses trees that are too high, arrays without elements,
and arrays and structs that are larger than the address space; an application to no arguments is
read as the generic itself. The reading of a type is recursive in the levels of nesting that are
still allowed. A level counts from its first look at the input, so where the input ends before the
tag the level stays open.
-/
namespace NativeBridge

namespace Ty
open Wire

def builtinTag : UInt8 := 0
def arrayTag : UInt8 := 1
def structTag : UInt8 := 2
def referenceTag : UInt8 := 3
def coneTag : UInt8 := 4

mutual

/-- The bytes of a type in front of what follows them. -/
def encodeOnto : Ty → Bytes → Bytes
  | builtin k, rest => builtinTag :: UInt8.ofNat k.ordinal :: rest
  | array e d, rest => arrayTag :: encodeOnto e (word d ++ rest)
  | struct n fs, rest => structTag :: (n.encode ++ (length fs.length ++ encodeAllOnto fs rest))
  | reference n, rest => referenceTag :: (n.encode ++ rest)
  | cone g as, rest =>
    coneTag :: encodeOnto g (length as.length ++ encodeArgumentsOnto as rest)

def encodeAllOnto : List Ty → Bytes → Bytes
  | [], rest => rest
  | t :: ts, rest => encodeOnto t (encodeAllOnto ts rest)

def encodeArgumentOnto : TypeArgument → Bytes → Bytes
  | .star, rest => flag false ++ rest
  | .concrete t, rest => flag true ++ encodeOnto t rest

def encodeArgumentsOnto : List TypeArgument → Bytes → Bytes
  | [], rest => rest
  | a :: as, rest => encodeArgumentOnto a (encodeArgumentsOnto as rest)

end

def encode (t : Ty) : Bytes := t.encodeOnto []

def encodeArgument (a : TypeArgument) : Bytes := encodeArgumentOnto a []

mutual

theorem encodeOnto_append : ∀ (t : Ty) (rest more : Bytes),
    encodeOnto t rest ++ more = encodeOnto t (rest ++ more)
  | builtin _, _, _ => by simp [encodeOnto]
  | array e _, _, _ => by simp [encodeOnto, encodeOnto_append e]
  | struct _ fs, _, _ => by simp [encodeOnto, encodeAllOnto_append fs]
  | reference _, _, _ => by simp [encodeOnto]
  | cone g as, _, _ => by
    simp [encodeOnto, encodeOnto_append g, encodeArgumentsOnto_append as]

theorem encodeAllOnto_append : ∀ (ts : List Ty) (rest more : Bytes),
    encodeAllOnto ts rest ++ more = encodeAllOnto ts (rest ++ more)
  | [], _, _ => by simp [encodeAllOnto]
  | t :: ts, _, _ => by simp [encodeAllOnto, encodeOnto_append t, encodeAllOnto_append ts]

theorem encodeArgumentOnto_append : ∀ (a : TypeArgument) (rest more : Bytes),
    encodeArgumentOnto a rest ++ more = encodeArgumentOnto a (rest ++ more)
  | .star, _, _ => by simp [encodeArgumentOnto]
  | .concrete t, _, _ => by simp [encodeArgumentOnto, encodeOnto_append t]

theorem encodeArgumentsOnto_append : ∀ (as : List TypeArgument) (rest more : Bytes),
    encodeArgumentsOnto as rest ++ more = encodeArgumentsOnto as (rest ++ more)
  | [], _, _ => by simp [encodeArgumentsOnto]
  | a :: as, _, _ => by
    simp [encodeArgumentsOnto, encodeArgumentOnto_append a, encodeArgumentsOnto_append as]

end

theorem encodeOnto_eq (t : Ty) (rest : Bytes) : t.encodeOnto rest = t.encode ++ rest := by
  simp [encode, encodeOnto_append]

theorem encodeArgumentOnto_eq (a : TypeArgument) (rest : Bytes) :
    encodeArgumentOnto a rest = encodeArgument a ++ rest := by
  simp [encodeArgument, encodeArgumentOnto_append]

theorem encodeAllOnto_eq (ts : List Ty) (rest : Bytes) :
    encodeAllOnto ts rest = ts.flatMap encode ++ rest := by
  induction ts with
  | nil => simp [encodeAllOnto]
  | cons t ts ih => simp [encodeAllOnto, encodeOnto_eq, ih]

theorem encodeArgumentsOnto_eq (as : List TypeArgument) (rest : Bytes) :
    encodeArgumentsOnto as rest = as.flatMap encodeArgument ++ rest := by
  induction as with
  | nil => simp [encodeArgumentsOnto]
  | cons a as ih => simp [encodeArgumentsOnto, encodeArgumentOnto_eq, ih]

theorem encode_builtin (k : Kind) : encode (builtin k) = [builtinTag, UInt8.ofNat k.ordinal] := by
  simp [encode, encodeOnto]

theorem encode_array (e : Ty) (d : UInt32) :
    encode (array e d) = arrayTag :: (e.encode ++ word d) := by
  simp [encode, encodeOnto, encodeOnto_append]

theorem encode_struct (n : SymbolName) (fs : List Ty) :
    encode (struct n fs) = structTag :: (n.encode ++ list encode fs) := by
  simp [encode, encodeOnto, encodeAllOnto_eq, list]

theorem encode_reference (n : SymbolName) : encode (reference n) = referenceTag :: n.encode := by
  simp [encode, encodeOnto]

theorem encode_cone (g : Ty) (as : List TypeArgument) :
    encode (cone g as) = coneTag :: (g.encode ++ list encodeArgument as) := by
  simp [encode, encodeOnto, encodeOnto_append, encodeArgumentsOnto_eq, list]

theorem encodeArgument_star : encodeArgument .star = flag false := by
  simp [encodeArgument, encodeArgumentOnto]

theorem encodeArgument_concrete (t : Ty) : encodeArgument (.concrete t) = flag true ++ t.encode := by
  simp [encodeArgument, encode, encodeArgumentOnto]

def encodeList (ts : List Ty) : Bytes := list encode ts

def builtinBody : Decoder Ty := do
  let offset ← Decoder.position
  let ordinal ← Decoder.byte
  match Kind.ofOrdinal? ordinal.toNat with
  | some k => return builtin k
  | none => throw (.invalidKind offset ordinal)

def arrayBody (inner : Decoder Ty) : Decoder Ty := do
  let element ← inner
  let offset ← Decoder.position
  let dims ← Decoder.word
  if dims = 0 then throw (.zeroDimensions offset)
  return array element dims

def structBody (inner : Decoder Ty) : Decoder Ty := do
  let name ← SymbolName.decoder
  let fields ← Decoder.list inner
  return struct name fields

def referenceBody : Decoder Ty := do
  return reference (← SymbolName.decoder)

/-- A type argument is an optional type; its absence is the wildcard. -/
def argumentWith (inner : Decoder Ty) : Decoder TypeArgument := do
  match ← Decoder.optional inner with
  | some t => return .concrete t
  | none => return .star

def coneBody (inner : Decoder Ty) : Decoder Ty := do
  let generic ← inner
  let arguments ← Decoder.list (argumentWith inner)
  return apply generic arguments

/-- The tag and parts of a type that starts at `start`, with `inner` for the types inside it. -/
def tagged (inner : Decoder Ty) (start : Nat) (tag : UInt8) : Decoder Ty :=
  if tag = builtinTag then do let _ ← Decoder.byte; builtinBody
  else if tag = arrayTag then do let _ ← Decoder.byte; arrayBody inner
  else if tag = structTag then do let _ ← Decoder.byte; structBody inner
  else if tag = referenceTag then do let _ ← Decoder.byte; referenceBody
  else if tag = coneTag then do let _ ← Decoder.byte; coneBody inner
  else throw (.unknownTag "type" start tag)

/-- Arrays and structs are the types whose size is checked as they are read. -/
def isAggregate : Ty → Bool
  | array _ _ => true
  | struct _ _ => true
  | _ => false

/-- Reads a type where `budget` further levels may be entered. -/
def decodeWithin : Nat → Decoder Ty
  | 0 => do throw (.nestingTooDeep (← Decoder.position))
  | budget + 1 => do
    let start ← Decoder.position
    Decoder.enter
    let tag ← Decoder.peek
    let t ← Decoder.leaving (tagged (decodeWithin budget) start tag)
    if t.isAggregate && t.checkedSize.isNone then throw (.sizeOverflow start)
    return t

def decoder : Decoder Ty := fun r => decodeWithin (maxNesting - r.depth) r

end Ty

def TypeArgument.decoder : Wire.Decoder TypeArgument := Ty.argumentWith Ty.decoder

end NativeBridge
