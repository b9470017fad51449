import NativeBridge.Mangling.Mangle
import NativeBridge.Symbol.Id

/-! # Symbols

A symbol is a function, a class or a struct that a compiled unit exports, with its identifier, the
place where it is declared, the place of the symbol it was specialized from, if any, and the types
it was specialized to. The identifier of a symbol is noted as soon as it is read.
-/
namespace NativeBridge

/-- Where a symbol is declared. -/
structure SymbolInfo where
  name : SymbolName
  line : Int32
  column : Int32
  file : String
deriving DecidableEq, Inhabited

inductive SymbolVariant
  | function (signature : Signature)
  | managedClass
  | struct (fields : List Ty)
deriving DecidableEq

structure Symbol where
  id : SymbolId
  info : SymbolInfo
  origin : Option SymbolInfo
  typeArguments : List Ty
  variant : SymbolVariant
deriving DecidableEq

namespace SymbolInfo
open Wire

/-- File, line and column. -/
def trace (i : SymbolInfo) : String :=
  i.file ++ ":" ++ toString i.line.toInt ++ ":" ++ toString i.column.toInt

def encode (i : SymbolInfo) : Bytes := i.name.encode ++ int i.line ++ int i.column ++ text i.file

def decoder : Decoder SymbolInfo := do
  let name ← SymbolName.decoder
  let line ← Decoder.int
  let column ← Decoder.int
  let file ← Decoder.text
  return { name, line, column, file }

end SymbolInfo

namespace SymbolVariant
open Wire

def label : SymbolVariant → String
  | function _ => "function"
  | .managedClass => "class"
  | struct _ => "struct"

def functionTag : UInt8 := 0
def classTag : UInt8 := 1
def structTag : UInt8 := 2

def tag : SymbolVariant → UInt8
  | function _ => functionTag
  | .managedClass => classTag
  | struct _ => structTag

def encode : SymbolVariant → Bytes
  | function s => s.encode
  | .managedClass => []
  | struct fields => Ty.encodeList fields

/-- The variant behind one of the three tags. -/
def decoder (tag : UInt8) : Decoder SymbolVariant :=
  if tag = functionTag then do return function (← Signature.decoder)
  else if tag = classTag then return .managedClass
  else do return struct (← Decoder.list Ty.decoder)

end SymbolVariant

namespace Symbol
open Wire

/-- A new symbol under a fresh identifier. -/
def create (counter : IdCounter) (info : SymbolInfo) (origin : Option SymbolInfo)
    (typeArguments : List Ty) (variant : SymbolVariant) : Symbol × IdCounter :=
  let (id, counter) := counter.fresh
  ({ id, info, origin, typeArguments, variant }, counter)

def name (s : Symbol) : SymbolName := s.info.name

def signature? (s : Symbol) : Option Signature :=
  match s.variant with
  | .function signature => some signature
  | _ => none

/-- The key of a function symbol. -/
def key? (s : Symbol) : Option String :=
  s.signature?.map fun signature => signature.key s.name s.typeArguments

def fields? (s : Symbol) : Option (List Ty) :=
  match s.variant with
  | .struct fields => some fields
  | _ => none

/-- The type that a struct symbol describes. -/
def type? (s : Symbol) : Option Ty := s.fields?.map (Ty.struct s.name)

def text (s : Symbol) : String :=
  let applied := if s.typeArguments.isEmpty then "" else "<" ++ Ty.texts s.typeArguments ++ ">"
  let shape := match s.variant with
    | .function f => "(" ++ Ty.texts f.parameters ++ ") -> " ++ f.returns.text
    | .managedClass => ""
    | .struct fields => " \x7b" ++ Ty.texts fields ++ "\x7d"
  s.variant.label ++ " " ++ s.name.full ++ applied ++ shape

def encode (s : Symbol) : Bytes :=
  s.variant.tag :: (word s.id.raw ++ s.info.encode ++ optional SymbolInfo.encode s.origin ++
    Ty.encodeList s.typeArguments ++ s.variant.encode)

def known (tag : UInt8) : Bool :=
  tag == SymbolVariant.functionTag || tag == SymbolVariant.classTag ||
    tag == SymbolVariant.structTag

def decoder : Decoder Symbol := do
  let offset ← Decoder.position
  let tag ← Decoder.peek
  if !known tag then throw (.unknownTag "symbol" offset tag)
  let _ ← Decoder.byte
  let raw ← Decoder.word
  Decoder.noteId raw
  let info ← SymbolInfo.decoder
  let origin ← Decoder.optional SymbolInfo.decoder
  let typeArguments ← Decoder.list Ty.decoder
  let variant ← SymbolVariant.decoder tag
  return { id := ⟨raw⟩, info, origin, typeArguments, variant }

end Symbol

instance : ToString Symbol := ⟨Symbol.text⟩

end NativeBridge
