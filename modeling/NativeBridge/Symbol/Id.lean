/-! # Symbol identifiers

Identifiers are 32-bit numbers, unique within a process. A counter holds the next one to be given
out. An identifier that comes from elsewhere moves the counter past itself, as far as the counter
can go; giving one out moves it by one and wraps around at the end.
-/
namespace NativeBridge

structure SymbolId where
  raw : UInt32
deriving DecidableEq, Inhabited

instance : ToString SymbolId := ⟨fun id => "#" ++ toString id.raw.toNat⟩

structure IdCounter where
  upcoming : UInt32
deriving DecidableEq

namespace IdCounter

def start : IdCounter := ⟨1⟩

def greatest : UInt32 := 0xffffffff

/-- A fresh identifier. -/
def fresh (c : IdCounter) : SymbolId × IdCounter := (⟨c.upcoming⟩, ⟨c.upcoming + 1⟩)

/-- The number after `raw`, or `raw` itself where there is none. -/
def after (raw : UInt32) : UInt32 := if raw = greatest then greatest else raw + 1

def note (c : IdCounter) (raw : UInt32) : IdCounter :=
  ⟨if c.upcoming < after raw then after raw else c.upcoming⟩

/-- Notes identifiers of which the latest comes first. -/
def noteAll (c : IdCounter) (raws : List UInt32) : IdCounter := raws.foldr (fun raw c => c.note raw) c

@[simp] theorem noteAll_nil (c : IdCounter) : c.noteAll [] = c := rfl

@[simp] theorem noteAll_cons (c : IdCounter) (raw : UInt32) (raws : List UInt32) :
    c.noteAll (raw :: raws) = (c.noteAll raws).note raw := rfl

end IdCounter

end NativeBridge
