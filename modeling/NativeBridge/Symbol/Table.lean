import NativeBridge.Mangling.Demangle
import NativeBridge.Symbol.Basic

/-! # Symbol tables

A table is the public surface of a compiled unit: its symbols in order. Tables are linked by
putting one behind the other, and every look-up gives the first symbol that fits, so a linked table
answers from its first part wherever that part has an answer.
-/
namespace NativeBridge

structure SymbolTable where
  symbols : List Symbol
deriving DecidableEq, Inhabited

namespace SymbolTable
open Wire

instance : Append SymbolTable := ⟨fun a b => ⟨a.symbols ++ b.symbols⟩⟩

@[simp] theorem symbols_append (a b : SymbolTable) : (a ++ b).symbols = a.symbols ++ b.symbols :=
  rfl

/-- Puts a symbol behind the others. -/
def push (t : SymbolTable) (s : Symbol) : SymbolTable := ⟨t.symbols ++ [s]⟩

/-- Takes in the symbols of another table, one after the other. -/
def extend (t other : SymbolTable) : SymbolTable := other.symbols.foldl push t

/-- A new table with the symbols of two others, which stay as they are. -/
def linked (a b : SymbolTable) : SymbolTable := (extend ⟨[]⟩ a).extend b

theorem symbols_extend (t other : SymbolTable) :
    (t.extend other).symbols = t.symbols ++ other.symbols := by
  have h : ∀ (symbols : List Symbol) (t : SymbolTable),
      (symbols.foldl push t).symbols = t.symbols ++ symbols := by
    intro symbols
    induction symbols with
    | nil => exact fun t => (List.append_nil t.symbols).symm
    | cons s symbols ih =>
      intro t
      rw [List.foldl_cons, ih]
      exact (List.append_cons t.symbols s symbols).symm
  exact h other.symbols t

theorem extend_eq_append (a b : SymbolTable) : a.extend b = a ++ b :=
  congrArg mk (symbols_extend a b)

theorem linked_eq_append (a b : SymbolTable) : linked a b = a ++ b := by
  rw [linked, extend_eq_append, extend_eq_append]
  rfl

def size (t : SymbolTable) : Nat := t.symbols.length

def isEmpty (t : SymbolTable) : Bool := t.symbols.isEmpty

def get? (t : SymbolTable) (i : Nat) : Option Symbol := t.symbols[i]?

def findById (t : SymbolTable) (id : SymbolId) : Option Symbol :=
  t.symbols.find? fun s => s.id == id

def findByName (t : SymbolTable) (full : String) : Option Symbol :=
  t.symbols.find? fun s => s.name.full == full

def findByKey (t : SymbolTable) (key : String) : Option Symbol :=
  t.symbols.find? fun s => s.key? == some key

/-- The fields of the struct symbol of this name: a resolver for demangling. -/
def structFields (t : SymbolTable) (name : SymbolName) : Option (List Ty) :=
  t.symbols.findSome? fun s => if s.name = name then s.fields? else none

theorem findById_append (a b : SymbolTable) (id : SymbolId) :
    (a ++ b).findById id = (a.findById id).or (b.findById id) := by
  simp [findById, List.find?_append]

theorem findByName_append (a b : SymbolTable) (full : String) :
    (a ++ b).findByName full = (a.findByName full).or (b.findByName full) := by
  simp [findByName, List.find?_append]

theorem findByKey_append (a b : SymbolTable) (key : String) :
    (a ++ b).findByKey key = (a.findByKey key).or (b.findByKey key) := by
  simp [findByKey, List.find?_append]

theorem structFields_append (a b : SymbolTable) (name : SymbolName) :
    (a ++ b).structFields name = (a.structFields name).or (b.structFields name) := by
  simp [structFields, List.findSome?_append]

def encode (t : SymbolTable) : Bytes := list Symbol.encode t.symbols

def decoder : Decoder SymbolTable := do return ⟨← Decoder.list Symbol.decoder⟩

/-- A table from a complete input; the counter notes the identifiers that were met, also where the
input is refused. -/
def ofBytes (counter : IdCounter) (bytes : Bytes) : Except DecodeError SymbolTable × IdCounter :=
  let (table, ids) := decodeAll decoder bytes
  (table, counter.noteAll ids)

end SymbolTable

end NativeBridge
