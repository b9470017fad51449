import NativeBridge.CommandLine.Grammar

/-! # Invocations

What a command line asks for: one of four commands, and whether to be verbose, which may be said
before the command or behind it.
-/
namespace NativeBridge

inductive Command
  | dump (file : String) (compressed : Bool)
  | demangle (names : List String) (table : Option String) (compressed : Bool)
  | call (library symbol returns : String) (now : Bool) (arguments : List String)
  | version
deriving DecidableEq

structure Invocation where
  command : Command
  verbose : Bool
deriving DecidableEq

namespace Invocation

def general : List Argument := [.switch "verbose" (some 'v'), .switch "help" (some 'h')]

def compressed : Argument := .switch "compressed" (some 'c')

/-- The commands, and the one that shows help on them. -/
def commandNames : List String := ["dump", "demangle", "call", "version", "help"]

def top : Grammar := ⟨general, [], [], commandNames⟩

def dumpGrammar : Grammar := ⟨compressed :: general, [.path "file" none], ["file"], []⟩

def demangleGrammar : Grammar :=
  ⟨.path "table" (some 't') :: compressed :: general, [.list "names"], ["names"], []⟩

def callGrammar : Grammar :=
  ⟨.text "returns" (some 'r') :: .switch "now" none :: general,
    [.text "library" none, .text "symbol" none, .tail "args"], ["library", "symbol"], []⟩

def versionGrammar : Grammar := ⟨general, [], [], []⟩

def one (m : Matches) (name : String) : String := (m.value? name).getD ""

def dump (m : Matches) : Command := .dump (one m "file") (m.given "compressed")

def demangle (m : Matches) : Command :=
  .demangle (m.values "names") (m.value? "table") (m.given "compressed")

def call (m : Matches) : Command :=
  .call (one m "library") (one m "symbol") ((m.value? "returns").getD "void") (m.given "now")
    (m.values "args")

/-- The help on a command, if there is one of that name. -/
def help : List String → UsageError
  | [] => .displayHelp
  | [name] => if commandNames.contains name then .displayHelp else .invalidCommand
  | _ => .invalidCommand

def ofCommand (verbose : Bool) (name : String) (words : List String) :
    Except UsageError Invocation := do
  let with' (g : Grammar) (command : Matches → Command) : Except UsageError Invocation := do
    let m ← g.parseAll words
    return ⟨command m, verbose || m.given "verbose"⟩
  match name with
  | "dump" => with' dumpGrammar dump
  | "demangle" => with' demangleGrammar demangle
  | "call" => with' callGrammar call
  | "version" => with' versionGrammar fun _ => .version
  | _ => throw (help words)

def ofWords (words : List String) : Except UsageError Invocation := do
  let (m, command) ← top.parse .start words
  let verbose := m.given "verbose"
  match command with
  | some (name, rest) => ofCommand verbose name rest
  | none => throw (if verbose then .missingCommand else .displayHelpOnMissing)

end Invocation

end NativeBridge
