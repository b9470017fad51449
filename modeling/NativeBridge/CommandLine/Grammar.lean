/-! # Command line grammar

A command line is a list of words. A word names options by long names or by clusters of letters, or
it is a value for an option or for the next positional argument, or it names a command, which takes
the words that follow. Values are collected before they are checked: an argument is settled when
another one begins or when the words end, and only then is it found to be without a value, empty, or
given twice. Behind a lone `--` all words are positional.
-/
namespace NativeBridge

/-- What a command line can end with instead of a command. -/
inductive UsageError
  | displayHelp
  | displayHelpOnMissing
  | missingCommand
  | invalidCommand
  | unknownArgument
  | missingArgument
  | conflict
  | tooManyValues
  | invalidValue
deriving DecidableEq

inductive Arity
  | switch
  | one
  | many
deriving DecidableEq

/-- An option or a positional argument; `letter` is for options. A positional argument may admit
values that look like options. -/
structure Argument where
  name : String
  letter : Option Char
  arity : Arity
  mayBeEmpty : Bool
  admitsHyphens : Bool
deriving DecidableEq

structure Grammar where
  options : List Argument
  positionals : List Argument
  required : List String
  commands : List String

namespace Argument

def switch (name : String) (letter : Option Char) : Argument := ⟨name, letter, .switch, true, false⟩

def text (name : String) (letter : Option Char) : Argument := ⟨name, letter, .one, true, false⟩

/-- The path of a file, which is never empty. -/
def path (name : String) (letter : Option Char) : Argument := ⟨name, letter, .one, false, false⟩

def list (name : String) : Argument := ⟨name, none, .many, true, false⟩

/-- A list of which every word from its first on is a part. -/
def tail (name : String) : Argument := ⟨name, none, .many, true, true⟩

end Argument

/-- The form of a word. -/
inductive Word
  | divider
  | long (name : String) (value : Option String)
  | cluster (letters : List Char)
  | plain
deriving DecidableEq

def Word.of (s : String) : Word :=
  match s.toList with
  | ['-', '-'] => divider
  | '-' :: '-' :: rest =>
    let name := String.ofList (rest.takeWhile (· ≠ '='))
    match rest.dropWhile (· ≠ '=') with
    | _ :: value => long name (some (String.ofList value))
    | [] => long name none
  | '-' :: c :: rest => cluster (c :: rest)
  | _ => plain

/-- What the next word may belong to besides an argument of its own. -/
inductive Phase
  | free
  | option (a : Argument)
  | positional (a : Argument)
deriving DecidableEq

/-- What the words so far have given: settled arguments with their values, the one whose values are
being collected, and the place among the positional ones. -/
structure Matches where
  settled : List (String × List String)
  pending : Option (Argument × List String)
  phase : Phase
  index : Nat
  trailing : Bool

namespace Matches

def start : Matches := ⟨[], none, .free, 0, false⟩

def given (m : Matches) (name : String) : Bool := m.settled.any fun entry => entry.1 == name

/-- All values of an argument in order. -/
def values (m : Matches) (name : String) : List String :=
  (m.settled.filter fun entry => entry.1 == name).flatMap Prod.snd

def value? (m : Matches) (name : String) : Option String := (m.values name).head?

/-- Enters an argument with its values. -/
def record (m : Matches) (a : Argument) (values : List String) : Except UsageError Matches :=
  if a.arity ≠ .switch ∧ values.isEmpty then .error .invalidValue
  else if a.arity ≠ .many ∧ m.given a.name then .error .conflict
  else if !a.mayBeEmpty && values.any String.isEmpty then .error .invalidValue
  else .ok { m with settled := m.settled ++ [(a.name, values)] }

def settle (m : Matches) : Except UsageError Matches :=
  match m.pending with
  | none => .ok m
  | some (a, values) => { m with pending := none }.record a values

/-- An option that came with all it needs. -/
def complete (m : Matches) (a : Argument) (values : List String) : Except UsageError Matches := do
  let m ← m.settle
  if a.name = "help" then throw .displayHelp
  return { (← m.record a values) with phase := .free }

/-- An option whose value is the next word. -/
def await (m : Matches) (a : Argument) : Except UsageError Matches := do
  return { (← m.settle) with pending := some (a, []), phase := .option a }

/-- Whether the next word belongs to a list that takes all words. -/
def inTail (m : Matches) : Bool :=
  match m.phase with
  | .positional a => a.admitsHyphens
  | _ => false

end Matches

namespace Grammar

variable (g : Grammar)

def next? (m : Matches) : Option Argument := g.positionals[m.index]?

/-- Whether the next positional argument admits values that look like options. -/
def nextAdmitsHyphens (m : Matches) : Bool := (g.next? m).any Argument.admitsHyphens

/-- The error for a word that nothing can take. -/
def stray (m : Matches) (word : String) : UsageError :=
  if g.commands.isEmpty || (m.trailing && g.commands.contains word) then .unknownArgument
  else .invalidCommand

def positional (m : Matches) (word : String) : Except UsageError Matches := do
  match g.next? m with
  | none => throw (g.stray m word)
  | some a =>
    if a.arity = .many then
      match m.pending with
      | some (b, values) =>
        if a = b then return { m with pending := some (a, values ++ [word]), phase := .positional a }
      | none => pure ()
      return { (← m.settle) with pending := some (a, [word]), phase := .positional a }
    else
      return { (← m.settle) with pending := some (a, [word]), phase := .free, index := m.index + 1 }

/-- A word that is a value: of the option that waits for one, or positional. -/
def takeValue (m : Matches) (word : String) : Except UsageError Matches :=
  match m.phase with
  | .option a => .ok { m with pending := some (a, [word]), phase := .free }
  | _ => g.positional m word

def takeLong (m : Matches) (word name : String) (value : Option String) :
    Except UsageError Matches :=
  match g.options.find? fun a => a.name == name with
  | some a =>
    match a.arity, value with
    | .switch, some _ => .error .tooManyValues
    | .switch, none => m.complete a []
    | _, some v => m.complete a [v]
    | _, none => m.await a
  | none => if g.nextAdmitsHyphens m then g.takeValue m word else .error .unknownArgument

def ofLetter? (c : Char) : Option Argument := g.options.find? fun a => a.letter == some c

/-- Letters one after the other; what follows one that takes a value is its value. -/
def takeLetters (m : Matches) : List Char → Except UsageError Matches
  | [] => .ok m
  | c :: rest =>
    match g.ofLetter? c with
    | none => .error .unknownArgument
    | some a =>
      if a.arity = .switch then do takeLetters (← m.complete a []) rest
      else
        match rest with
        | [] => m.await a
        | '=' :: value => m.complete a [String.ofList value]
        | value => m.complete a [String.ofList value]

def takeCluster (m : Matches) (word : String) (letters : List Char) : Except UsageError Matches :=
  if g.nextAdmitsHyphens m && letters.any fun c => (g.ofLetter? c).isNone then g.takeValue m word
  else g.takeLetters m letters

def takeWord (m : Matches) (word : String) : Except UsageError Matches :=
  if m.trailing then g.positional m word
  else if m.inTail then g.takeValue m word
  else
    match Word.of word with
    | .divider => .ok { m with trailing := true }
    | .long name value => g.takeLong m word name value
    | .cluster letters => g.takeCluster m word letters
    | .plain => g.takeValue m word

/-- Whether the word names a command where it stands. -/
def isCommand (m : Matches) (word : String) : Bool :=
  !m.trailing && m.phase = .free && g.commands.contains word

/-- What the words give up to the first command, and that command with the words behind it. -/
def parse (m : Matches) : List String → Except UsageError (Matches × Option (String × List String))
  | [] => do return (← m.settle, none)
  | word :: rest =>
    if g.isCommand m word then .ok (m, some (word, rest))
    else do parse (← g.takeWord m word) rest

/-- All words, where every required argument is given. -/
def parseAll (words : List String) : Except UsageError Matches := do
  let (m, _) ← g.parse .start words
  if g.required.all m.given then return m else throw .missingArgument

end Grammar

end NativeBridge
