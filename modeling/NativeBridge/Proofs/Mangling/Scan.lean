import NativeBridge.Proofs.Mangling.Past
import NativeBridge.Proofs.Text.Cut

/-! # Demangling by places

The parser once more, on the text as a whole and a place in it that is a number of bytes. What is ahead
is found by cutting the text at the place, which ends the run where there is no boundary of a character.
A loop goes on until it is over, and a type is read whatever the level, if that is not too deep; both have
an allowance, and use it up where they would not end. Sums and differences of 32 bits end the run where
they are out of range and the build checks them; else they go round.
-/
namespace NativeBridge.Demangle

/-- The number of bytes behind, and the level of nesting. -/
structure Place where
  pos : Nat
  depth : Nat
deriving DecidableEq

/-- Why a run has no result: the text is refused, or it is cut where no character starts, or a number
got out of range, or a loop made more turns than were allowed, or there were more calls in each other. -/
inductive Halt
  | refused (cause : DemangleError)
  | slice (pos : Nat)
  | overflow
  | turns
  | calls
deriving DecidableEq

/-- Whether sums and differences are checked. -/
inductive Build
  | checked
  | unchecked
deriving DecidableEq

abbrev Scanner := EStateM Halt Place

namespace Scan

variable {α : Type} (build : Build) (text : List Char)

def plus (m n : UInt32) : Scanner UInt32 :=
  if build = .checked ∧ UInt32.size ≤ m.toNat + n.toNat then throw .overflow else return m + n

def minus (m n : UInt32) : Scanner UInt32 :=
  if build = .checked ∧ m < n then throw .overflow else return m - n

/-- What is left of the opened levels for the outermost of those that are closed. -/
def outermost (opened : UInt32) (closed : Nat) : Scanner UInt32 := do
  minus build opened (← minus build (UInt32.ofNat closed) 1)

/-- The text from the place on. -/
def ahead : Scanner (List Char) := fun p =>
  match Text.cut? p.pos text with
  | some (_, rest) => .ok rest p
  | none => .error (.slice p.pos) p

example : ahead ['é', 'd'] ⟨1, 0⟩ = .error (.slice 1) ⟨1, 0⟩ := rfl

def atEnd : Scanner Bool := do return utf8Length text ≤ (← get).pos

def peek : Scanner (Option Char) := do return (← ahead text).head?

def move (n : Nat) : Scanner Unit := modify fun p => { p with pos := p.pos + n }

def unexpected : Scanner α := do
  match ← peek text with
  | some found => throw (.refused (.unexpectedChar (← get).pos found))
  | none => throw (.refused .unexpectedEnd)

def eat (mark : List Char) : Scanner Bool := do
  if mark.isPrefixOf (← ahead text) then
    move (utf8Length mark)
    return true
  else return false

def expect (mark : List Char) : Scanner Unit := do
  if ← eat text mark then return () else unexpected text

def tooDeep : Scanner α := do throw (.refused (.nestingTooDeep (← get).pos))

def nest (child : Nat) : Scanner Nat :=
  if maxNesting < child + 1 then tooDeep else return child + 1

/-- Runs a scanner one level deeper. -/
def deeper (p : Scanner α) : Scanner α := fun c =>
  match p { c with depth := c.depth + 1 } with
  | .ok a d => .ok a { d with depth := d.depth - 1 }
  | .error e d => .error e { d with depth := d.depth - 1 }

/-- The text before the next `$`, cut off what is ahead. -/
def upToMark : Scanner (List Char) := do
  match Text.offsetOf? '$' (← ahead text) with
  | none => throw (.refused .unexpectedEnd)
  | some n =>
    match Text.cut? n (← ahead text) with
    | none => throw (.slice n)
    | some (taken, _) =>
      move n
      return taken

def nameBetween (letter : Char) : Scanner SymbolName := do
  expect text (openMark letter)
  let mangled ← upToMark text
  expect text (closeMark letter)
  match SymbolName.ofMangled (String.ofList mangled) with
  | .ok n => return n
  | .error e => throw (.refused (.invalidName e))

def applyAll : Parsed → List Application → Scanner Parsed
  | parsed, [] => return parsed
  | (generic, height), (arguments, tallest) :: more => do
    let height ← nest (max height tallest)
    applyAll (.cone generic arguments, height) more

def wrapLevels (dims : UInt32) : Parsed → List (List Application) → Scanner Parsed
  | parsed, [] => return parsed
  | (element, height), applied :: more => do
    let height ← nest height
    let level := Ty.array element (if more.isEmpty then dims else 1)
    wrapLevels dims (← applyAll (level, height) applied) more

def structType (resolve : Resolver) : Scanner Parsed := do
  let name ← nameBetween text 'S'
  match resolve name with
  | none => throw (.refused (.unresolvedStruct name.full))
  | some fields => return (.struct name fields, ← nest (Ty.heights fields))

/-- The opening marks of arrays that follow, counted on from `opened`. -/
def openings : Nat → UInt32 → Scanner UInt32
  | 0, _ => throw .turns
  | turns + 1, opened => do
    if ← eat text (openMark 'A') then openings turns (← plus build opened 1) else return opened

section
variable (inner : Scanner Parsed) (limit : Nat)

def arguments : Nat → List TypeArgument → Nat → Scanner Application
  | 0, _, _ => throw .turns
  | turns + 1, acc, tallest => do
    if ← eat text (closeMark 'T') then return (acc.reverse, tallest)
    else if ← eat text ['_'] then arguments turns (.star :: acc) tallest
    else
      let (t, height) ← inner
      arguments turns (.concrete t :: acc) (max tallest height)

def applications : Nat → List Application → Scanner (List Application)
  | 0, _ => throw .turns
  | turns + 1, acc => do
    if ← eat text (openMark 'T') then
      let application ← arguments text inner limit [] 0
      applications turns (if application.1.isEmpty then acc else application :: acc)
    else return acc.reverse

def closedLevels (opened : UInt32) :
    Nat → List (List Application) → Scanner (List (List Application))
  | 0, _ => throw .turns
  | turns + 1, acc => do
    if opened ≤ UInt32.ofNat acc.length then return acc.reverse
    else if ← eat text (closeMark 'A') then
      let applied ← applications text inner limit limit []
      closedLevels opened turns (applied :: acc)
    else return acc.reverse

/-- What follows the opening marks of an array. -/
def openedArray (opened : UInt32) : Scanner Parsed := do
  if opened = 0 then unexpected text
  let element ← inner
  let levels ← closedLevels text inner limit opened limit []
  if levels.isEmpty then unexpected text
  wrapLevels (← outermost build opened levels.length) element levels

def base (resolve : Resolver) : Scanner Parsed := do
  match ← peek text with
  | none => unexpected text
  | some 'A' => do openedArray build text inner limit (← openings build text limit 0)
  | some 'C' => do return (.reference (← nameBetween text 'C'), 1)
  | some 'S' => structType text resolve
  | some code =>
    match Kind.ofCode? code with
    | some k => do
      move 1
      return (.builtin k, 1)
    | none => unexpected text

def typeWith (resolve : Resolver) : Scanner Parsed := do
  let generic ← base build text inner limit resolve
  let applied ← applications text inner limit limit []
  applyAll generic applied

end

/-- A type, with `calls` calls in each other and with `limit` turns of every loop. -/
def type (resolve : Resolver) (limit : Nat) : Nat → Scanner Parsed
  | 0 => throw .calls
  | calls + 1 => do
    if maxNesting ≤ (← get).depth then tooDeep
    else deeper (typeWith build text (type resolve limit calls) limit resolve)

def types (resolve : Resolver) (limit calls : Nat) : Nat → List Ty → Scanner (List Ty)
  | 0, _ => throw .turns
  | turns + 1, acc => do
    if ← atEnd text then return acc.reverse
    else
      let (t, _) ← type build text resolve limit calls
      types resolve limit calls turns (t :: acc)

def finish : Scanner Unit := do
  if ← atEnd text then return () else throw (.refused (.trailingInput (← get).pos))

def run (p : Scanner α) : Except Halt α :=
  match p ⟨0, 0⟩ with
  | .ok a _ => .ok a
  | .error e _ => .error e

end Scan

/-- Reads one type that takes up the whole text. -/
def scan (build : Build) (text : List Char) (resolve : Resolver) (limit calls : Nat) : Except Halt Ty :=
  Scan.run do
    let (t, _) ← Scan.type build text resolve limit calls
    Scan.finish text
    return t

/-- Reads types one behind the other. -/
def scanList (build : Build) (text : List Char) (resolve : Resolver) (limit calls : Nat) :
    Except Halt (List Ty) :=
  Scan.run (Scan.types build text resolve limit calls limit [])

end NativeBridge.Demangle
