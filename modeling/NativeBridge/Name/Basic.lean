/-! # Symbol names

A symbol has a full name of segments divided by dots and a short name at its end. A name is valid
when both are equal, or when a nonempty package and a dot stand before the short name. The mangled
form joins package and short name by an underscore and writes the package with underscores for its
dots, so it can be read back only where neither part has an underscore of its own.
-/
namespace NativeBridge

structure SymbolName where
  full : String
  short : String
deriving DecidableEq, Inhabited

inductive NameError
  | suffixMismatch (full short : String)
  | missingSeparator (mangled : String)
  | emptyShortName (mangled : String)
deriving DecidableEq

def NameError.message : NameError → String
  | suffixMismatch full short =>
    "short name '" ++ short ++ "' is not the last segment of '" ++ full ++ "'"
  | missingSeparator mangled => "mangled name '" ++ mangled ++ "' has no package separator"
  | emptyShortName mangled => "mangled name '" ++ mangled ++ "' has an empty short name"

namespace SymbolName

/-- What follows the last `mark` of a text, all of it where there is none. -/
def afterLast (mark : Char) (cs : List Char) : List Char :=
  (cs.reverse.takeWhile (· ≠ mark)).reverse

/-- `short` ends `full`, and before it stands a dot with something in front. -/
def isTail (full short : List Char) : Bool :=
  let front := full.take (full.length - short.length)
  full.drop (full.length - short.length) == short && 1 < front.length &&
    front.getLast? == some '.'

def isValid (n : SymbolName) : Bool :=
  n.full == n.short || isTail n.full.toList n.short.toList

/-- A name from its two parts, if they make a valid one. -/
def make (full short : String) : Except NameError SymbolName :=
  if isValid ⟨full, short⟩ then .ok ⟨full, short⟩ else .error (.suffixMismatch full short)

/-- The name whose short name is the last segment of `full`. -/
def ofFull (full : String) : SymbolName :=
  ⟨full, String.ofList (afterLast '.' full.toList)⟩

def packageChars (n : SymbolName) : List Char :=
  if n.full = n.short then []
  else n.full.toList.take (n.full.toList.length - n.short.toList.length - 1)

/-- All before the dot that precedes the short name; empty at top level. -/
def package (n : SymbolName) : String := String.ofList n.packageChars

def isTopLevel (n : SymbolName) : Bool := n.packageChars.isEmpty

def segments (n : SymbolName) : List String :=
  (n.full.toList.splitOn '.').map String.ofList

def packageSegments (n : SymbolName) : List String :=
  if n.packageChars.isEmpty then [] else (n.packageChars.splitOn '.').map String.ofList

def nameSegments (n : SymbolName) : List String :=
  (n.short.toList.splitOn '.').map String.ofList

/-- Dots as underscores. -/
def flattenDots (cs : List Char) : List Char := cs.map fun c => if c = '.' then '_' else c

/-- Underscores as dots. -/
def restoreDots (cs : List Char) : List Char := cs.map fun c => if c = '_' then '.' else c

def mangledChars (n : SymbolName) : List Char :=
  flattenDots n.packageChars ++ '_' :: n.short.toList

def mangled (n : SymbolName) : String := String.ofList n.mangledChars

/-- The full name that package and short name make. -/
def join (package short : List Char) : List Char :=
  if package.isEmpty then short else package ++ '.' :: short

/-- Reads a mangled name; its last underscore divides package and short name. -/
def ofMangled (mangled : String) : Except NameError SymbolName :=
  let cs := mangled.toList
  if cs.contains '_' then
    let short := afterLast '_' cs
    if short.isEmpty then .error (.emptyShortName mangled)
    else
      let package := restoreDots (cs.take (cs.length - short.length - 1))
      make (String.ofList (join package short)) (String.ofList short)
  else .error (.missingSeparator mangled)

/-- Full names in the order of their code points, then short names. -/
def order (a b : SymbolName) : Ordering :=
  if a.full < b.full then .lt
  else if b.full < a.full then .gt
  else if a.short < b.short then .lt
  else if b.short < a.short then .gt
  else .eq

@[simp] theorem make_eq_ok_iff {full short : String} {n : SymbolName} :
    make full short = .ok n ↔ n = ⟨full, short⟩ ∧ n.isValid = true := by
  unfold make
  constructor
  · intro h
    split at h
    · cases h; exact ⟨rfl, ‹_›⟩
    · cases h
  · intro ⟨hn, h⟩
    subst hn
    simp [h]

end SymbolName

instance : ToString SymbolName := ⟨SymbolName.full⟩

end NativeBridge
