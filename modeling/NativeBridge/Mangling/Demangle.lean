import NativeBridge.Mangling.Mangle

/-! # Demangling

A parser of mangled types with one character of choice at every step. Fields of a struct come from
a resolver. The heights of the trees are computed on the way and bounded, as is the depth of the
recursion, which is structural in the levels of nesting that are still allowed. A loop makes at
most as many turns as the input has characters, and one more to see that it is over.

Arrays that lie directly in each other share their opening marks: every level but the outermost is
given one element and the outermost the rest. The marks are counted in 32 bits, and the count goes round
where nothing checks its sums. An application to no arguments is dropped.
-/
namespace NativeBridge

inductive DemangleError
  | unexpectedEnd
  | unexpectedChar (offset : Nat) (found : Char)
  | unresolvedStruct (name : String)
  | invalidName (cause : NameError)
  | nestingTooDeep (offset : Nat)
  | trailingInput (offset : Nat)
deriving DecidableEq

namespace DemangleError

/-- The message about the mangled text `input`. -/
def message (input : String) : DemangleError → String
  | unexpectedEnd => "unexpected end of mangled name '" ++ input ++ "'"
  | unexpectedChar offset found =>
    "unexpected '" ++ String.singleton found ++ "' at offset " ++ toString offset ++
      " in mangled name '" ++ input ++ "'"
  | unresolvedStruct name => "no field layout known for struct '" ++ name ++ "'"
  | invalidName cause => "invalid name in mangled form: " ++ cause.message
  | nestingTooDeep offset =>
    "type nesting exceeds " ++ toString maxNesting ++ " levels at offset " ++ toString offset ++
      " in mangled name '" ++ input ++ "'"
  | trailingInput offset =>
    "trailing input at offset " ++ toString offset ++ " in mangled name '" ++ input ++ "'"

/-- The message of an error, then that of the error it rests on. -/
def chain (input : String) (e : DemangleError) : List String :=
  match e with
  | invalidName cause => [e.message input, cause.message]
  | _ => [e.message input]

end DemangleError

/-- The fields of the structs that demangling may meet. -/
abbrev Resolver := SymbolName → Option (List Ty)

namespace Demangle

/-- The text ahead, the number of bytes behind, and the nesting level. -/
structure Cursor where
  rest : List Char
  offset : Nat
  depth : Nat
deriving DecidableEq, Inhabited

abbrev Parser := EStateM DemangleError Cursor

/-- A type and the height of its tree. -/
abbrev Parsed := Ty × Nat

/-- The arguments of one application and the height of the tallest. -/
abbrev Application := List TypeArgument × Nat

def utf8Length (cs : List Char) : Nat := cs.foldl (fun n c => n + c.utf8Size) 0

def atEnd : Parser Bool := do return (← get).rest.isEmpty

def unexpected {α : Type} : Parser α := fun c =>
  match c.rest with
  | [] => .error .unexpectedEnd c
  | found :: _ => .error (.unexpectedChar c.offset found) c

/-- Consumes a mark if the text goes on with it. -/
def eat (mark : List Char) : Parser Bool := fun c =>
  match mark.isPrefixOf? c.rest with
  | some rest => .ok true { c with rest, offset := c.offset + utf8Length mark }
  | none => .ok false c

def expect (mark : List Char) : Parser Unit := do
  if ← eat mark then return () else unexpected

def tooDeep {α : Type} : Parser α := fun c => .error (.nestingTooDeep c.offset) c

/-- The height of a node above a child of the given height. -/
def nest (child : Nat) : Parser Nat :=
  if maxNesting < child + 1 then tooDeep else return child + 1

/-- Runs a parser one level deeper. -/
def deeper {α : Type} (p : Parser α) : Parser α := fun c =>
  match p { c with depth := c.depth + 1 } with
  | .ok a d => .ok a { d with depth := d.depth - 1 }
  | .error e d => .error e { d with depth := d.depth - 1 }

/-- Consumes the text before the next `$`, which must be there. -/
def upToMark : Parser (List Char) := fun c =>
  if c.rest.contains '$' then
    let taken := c.rest.takeWhile (· ≠ '$')
    .ok taken { c with rest := c.rest.dropWhile (· ≠ '$'), offset := c.offset + utf8Length taken }
  else .error .unexpectedEnd c

/-- A mangled name between its marks. -/
def nameBetween (letter : Char) : Parser SymbolName := do
  expect (openMark letter)
  let mangled ← upToMark
  expect (closeMark letter)
  match SymbolName.ofMangled (String.ofList mangled) with
  | .ok n => return n
  | .error e => throw (.invalidName e)

/-- Arguments up to the end of their application, behind those of `acc`, which has the latest
first; `tallest` is the greatest height so far. -/
def arguments (inner : Parser Parsed) :
    Nat → List TypeArgument → Nat → Parser Application
  | 0, _, _ => unexpected
  | turns + 1, acc, tallest => do
    if ← eat (closeMark 'T') then return (acc.reverse, tallest)
    else if ← eat ['_'] then arguments inner turns (.star :: acc) tallest
    else
      let (t, height) ← inner
      arguments inner turns (.concrete t :: acc) (max tallest height)

/-- Applications, as many as follow, behind those of `acc`, which has the latest first. -/
def applications (inner : Parser Parsed) (limit : Nat) :
    Nat → List Application → Parser (List Application)
  | 0, _ => unexpected
  | turns + 1, acc => do
    if ← eat (openMark 'T') then
      let application ← arguments inner limit [] 0
      applications inner limit turns
        (if application.1.isEmpty then acc else application :: acc)
    else return acc.reverse

/-- Applies a generic to each group of arguments in turn. -/
def applyAll : Parsed → List Application → Parser Parsed
  | parsed, [] => return parsed
  | (generic, height), (arguments, tallest) :: more => do
    let height ← nest (max height tallest)
    applyAll (.cone generic arguments, height) more

/-- The opening marks of arrays that follow, counted on from `opened`. -/
def openings : Nat → UInt32 → Parser UInt32
  | 0, opened => return opened
  | turns + 1, opened => do
    if ← eat (openMark 'A') then openings turns (opened + 1) else return opened

/-- The levels that close one after the other, each with the applications behind it; there are at
most as many as were opened. -/
def closedLevels (inner : Parser Parsed) (limit : Nat) :
    Nat → List (List Application) → Parser (List (List Application))
  | 0, acc => return acc.reverse
  | opened + 1, acc => do
    if ← eat (closeMark 'A') then
      let applied ← applications inner limit limit []
      closedLevels inner limit opened (applied :: acc)
    else return acc.reverse

/-- Puts the levels of an array around its element, `dims` elements into the outermost and one into
every other. -/
def wrapLevels (dims : UInt32) : Parsed → List (List Application) → Parser Parsed
  | parsed, [] => return parsed
  | (element, height), applied :: more => do
    let height ← nest height
    let level := Ty.array element (if more.isEmpty then dims else 1)
    wrapLevels dims (← applyAll (level, height) applied) more

def arrayType (inner : Parser Parsed) (limit : Nat) : Parser Parsed := do
  let opened ← openings (← get).rest.length 0
  if opened = 0 then unexpected
  let element ← inner
  let levels ← closedLevels inner limit opened.toNat []
  if levels.isEmpty then unexpected
  wrapLevels (opened - (UInt32.ofNat levels.length - 1)) element levels

def structType (resolve : Resolver) : Parser Parsed := do
  let name ← nameBetween 'S'
  match resolve name with
  | none => throw (.unresolvedStruct name.full)
  | some fields => return (.struct name fields, ← nest (Ty.heights fields))

/-- A type without the applications behind it. -/
def base (resolve : Resolver) (inner : Parser Parsed) (limit : Nat) : Parser Parsed := do
  let c ← get
  match c.rest with
  | 'A' :: _ => arrayType inner limit
  | 'C' :: _ => do return (.reference (← nameBetween 'C'), 1)
  | 'S' :: _ => structType resolve
  | code :: rest =>
    match Kind.ofCode? code with
    | some k => do
      set { c with rest, offset := c.offset + 1 }
      return (.builtin k, 1)
    | none => unexpected
  | [] => unexpected

/-- A base type and the applications behind it, with `inner` for the types inside. -/
def typeWith (resolve : Resolver) (inner : Parser Parsed) (limit : Nat) : Parser Parsed := do
  let generic ← base resolve inner limit
  let applied ← applications inner limit limit []
  applyAll generic applied

/-- A type where `budget` further levels may be entered; a loop makes fewer than `limit` turns. -/
def typeWithin (resolve : Resolver) (limit : Nat) : Nat → Parser Parsed
  | 0 => tooDeep
  | budget + 1 => deeper (typeWith resolve (typeWithin resolve limit budget) limit)

def type (resolve : Resolver) (limit : Nat) : Parser Parsed := fun c =>
  typeWithin resolve limit (maxNesting - c.depth) c

/-- Types up to the end of the text, behind those of `acc`, which has the latest first. -/
def types (resolve : Resolver) (limit : Nat) : Nat → List Ty → Parser (List Ty)
  | 0, _ => unexpected
  | turns + 1, acc => do
    if ← atEnd then return acc.reverse
    else
      let (t, _) ← type resolve limit
      types resolve limit turns (t :: acc)

def finish : Parser Unit := fun c =>
  if c.rest.isEmpty then .ok () c else .error (.trailingInput c.offset) c

/-- More turns than a text has characters. -/
def limitFor (cs : List Char) : Nat := cs.length + 1

def run {α : Type} (p : Parser α) (cs : List Char) : Except DemangleError α :=
  match p ⟨cs, 0, 0⟩ with
  | .ok a _ => .ok a
  | .error e _ => .error e

end Demangle

/-- Reads one mangled type that takes up the whole text. -/
def demangle (input : String) (resolve : Resolver) : Except DemangleError Ty :=
  let cs := input.toList
  Demangle.run (do
    let (t, _) ← Demangle.type resolve (Demangle.limitFor cs)
    Demangle.finish
    return t) cs

/-- Reads mangled types one behind the other; the empty text is the empty list. -/
def demangleList (input : String) (resolve : Resolver) : Except DemangleError (List Ty) :=
  let cs := input.toList
  Demangle.run (Demangle.types resolve (Demangle.limitFor cs) (Demangle.limitFor cs) []) cs

end NativeBridge
