import NativeBridge.CommandLine.Invocation
import NativeBridge.Deflate.Compressor
import NativeBridge.Library.Standard
import NativeBridge.Session.Libraries
import NativeBridge.Symbol.Table
import NativeBridge.Value.Text

/-! # Reports

Each command gives the lines of a report, or the reason why there is none: a list of messages, each
resting on the next. A call reads its result kind and its arguments before it opens the library and
looks the symbol up, and it fills the buffer value by value.
-/
namespace NativeBridge

/-- What commands find around them: the configuration, the loader, and the contents of files or the
reasons why they cannot be read. -/
structure Surroundings where
  config : Config
  loader : Loader (NativeCode Unit)
  file : String → Except String (List UInt8)

inductive Refusal
  | usage (cause : UsageError)
  | failed (messages : List String)
  | fault (cause : Fault)

/-- The messages of a failure as one. -/
def Refusal.join (messages : List String) : String := ": ".intercalate messages

namespace Report

abbrev Outcome := Except Refusal

def fail {α : Type} (message : String) : Outcome α := throw (.failed [message])

/-- The text of lines, each of them ended. -/
def lines (ls : List String) : String := String.join (ls.map (· ++ "\n"))

def table (around : Surroundings) (path : String) (compressed : Bool) : Outcome SymbolTable := do
  match around.file path with
  | .error reason => throw (.failed ["failed to read " ++ path, reason])
  | .ok bytes =>
    let (result, _) :=
      if compressed then Wire.decodeCompressed Deflate.storing SymbolTable.decoder bytes
      else Wire.decodeAll SymbolTable.decoder bytes
    match result with
    | .ok t => return t
    | .error e => throw (.failed ((path ++ " is not a valid symbol table") :: e.chain))

/-- The lines about a symbol. -/
def symbolLines (verbose : Bool) (s : Symbol) : List String :=
  let key := s.key?.toList.map ("      key: " ++ ·)
  let places :=
    if verbose then
      ("      at: " ++ s.info.trace) :: s.origin.toList.map ("      from: " ++ ·.trace)
    else []
  ("  " ++ toString s.id ++ " " ++ s.text) :: (key ++ places)

def dump (around : Surroundings) (path : String) (compressed verbose : Bool) : Outcome String := do
  let t ← table around path compressed
  return lines
    ((path ++ " " ++ toString t.size ++ " symbols") :: t.symbols.flatMap (symbolLines verbose))

/-- The line about a mangled name. -/
def demangledLine (resolve : Resolver) (name : String) : Outcome String :=
  match demangleList name resolve with
  | .ok [] => return name ++ " => (empty)"
  | .ok ts => return name ++ " => " ++ Ty.texts ts
  | .error e => throw (.failed (("failed to demangle '" ++ name ++ "'") :: e.chain name))

def demangledLines (resolve : Resolver) : List String → Outcome (List String)
  | [] => return []
  | name :: rest => do
    let line ← demangledLine resolve name
    return line :: (← demangledLines resolve rest)

def demangle (around : Surroundings) (names : List String) (path : Option String)
    (compressed : Bool) : Outcome String := do
  match path with
  | none => return lines (← demangledLines (fun _ => none) names)
  | some path =>
    let t ← table around path compressed
    return lines (← demangledLines t.structFields names)

/-- The kind of a name, with blanks around it. -/
def kind (name : String) : Outcome CallKind :=
  match CallKind.ofName? (String.ofList (Text.trim name.toList)) with
  | some k => return k
  | none =>
    fail ("unknown kind '" ++ name ++ "' (expected one of " ++
      ", ".intercalate (CallKind.all.map CallKind.name) ++ ")")

/-- The value that `KIND:VALUE` writes. -/
def argument (s : String) : Outcome Value := do
  match s.toList.dropWhile (· ≠ ':') with
  | [] => fail ("argument '" ++ s ++ "' is not of the form KIND:VALUE")
  | _ :: rest =>
    let literal := String.ofList rest
    let k ← kind (String.ofList (s.toList.takeWhile (· ≠ ':')))
    if k = .void then fail "void is not an argument kind"
    match Value.parse? k literal with
    | some v => return v
    | none => fail ("'" ++ literal ++ "' is not a valid " ++ k.name ++ " literal")

def arguments : List String → Outcome (List Value)
  | [] => return []
  | s :: rest => do
    let v ← argument s
    return v :: (← arguments rest)

/-- The code of a symbol in a library that is opened for it. -/
def codeOf (around : Surroundings) (library symbol : String) (mode : LinkMode) :
    Outcome (NativeCode Unit) := do
  let (opened, session) :=
    Session.openLibrary [library] mode false (.start around.config around.loader)
  match opened.toOption.bind session.library? with
  | none =>
    match opened with
    | .error e => fail e.message
    | .ok _ => fail (CallError.libraryClosed library).message
  | some l =>
    match l.get symbol with
    | .ok code => return code
    | .error e => fail e.message

def putValues : List Value → BufferM Unit Unit
  | [] => return ()
  | v :: vs => do
    BufferM.putValue v
    putValues vs

def describe (vs : List Value) (returns : CallKind) : Descriptor :=
  { returns, parameters := vs.map Value.kind }

/-- The report of a call of a symbol that is over. -/
def ofResult (symbol : String) (d : Descriptor) (verbose : Bool) :
    EStateM.Result Failure (Thread Unit) Value → Outcome String
  | .error (.error e) _ => fail e.message
  | .error (.fault e) _ => throw (.fault e)
  | .ok v _ =>
    let call := if verbose then ["call: " ++ symbol ++ d.text] else []
    let result := if v.kind = .void then symbol ++ " returned" else symbol ++ " => " ++ v.text
    return lines (call ++ [result])

def call (around : Surroundings) (library symbol returns : String) (now : Bool)
    (literals : List String) (verbose : Bool) : Outcome String := do
  let returns ← kind returns
  let vs ← arguments literals
  let d := describe vs returns
  let code ← codeOf around library symbol (if now then .now else .lazy)
  let thread : Thread Unit := ⟨.ofCapacity around.config.stackSize, ()⟩
  ofResult symbol d verbose (Call.invokeValue (some code) d (putValues vs) thread)

def versionNumber : String := "0.1.0"

def version (config : Config) : String :=
  lines ["cinterop v" ++ versionNumber, "stack size: " ++ toString config.stackSize ++ " bytes"]

def ofInvocation (around : Surroundings) (i : Invocation) : Outcome String :=
  match i.command with
  | .dump file compressed => dump around file compressed i.verbose
  | .demangle names path compressed => demangle around names path compressed
  | .call library symbol returns now literals =>
    call around library symbol returns now literals i.verbose
  | .version => .ok (version around.config)

/-- The report that the words of a command line ask for. -/
def ofWords (around : Surroundings) (words : List String) : Outcome String :=
  match Invocation.ofWords words with
  | .ok i => ofInvocation around i
  | .error e => .error (.usage e)

end Report

end NativeBridge
