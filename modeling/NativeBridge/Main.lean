import NativeBridge.CommandLine.Report

/-! # The program

Reads the environment and the file that a command names, and prints the report.
-/
namespace NativeBridge

def usageText : String :=
  "Inspect cinterop symbol tables and call into native libraries\n\n" ++
    "Usage: cinterop [OPTIONS] <COMMAND>\n\n" ++
    "Commands: dump, demangle, call, version, help\n" ++
    "Options: -v, --verbose; -h, --help\n"

/-- The file that an invocation reads. -/
def Invocation.path? (i : Invocation) : Option String :=
  match i.command with
  | .dump file _ => some file
  | .demangle _ table _ => table
  | _ => none

def readReason : IO.Error → String
  | .noFileOrDirectory .. => "No such file or directory (os error 2)"
  | .permissionDenied .. => "Permission denied (os error 13)"
  | e => toString e

def readFile (path : String) : IO (Except String (List UInt8)) := do
  try
    return .ok (← IO.FS.readBinFile path).toList
  catch e => return .error (readReason e)

def surroundings (i : Invocation) : IO Surroundings := do
  let contents ← match i.path? with
    | some path => readFile path
    | none => pure (.ok [])
  let config := Config.ofVariable (← IO.getEnv Config.stackSizeVariable)
  return { config, loader := Standard.loader, file := fun _ => contents }

def report (i : Invocation) : IO UInt32 := do
  match Report.ofInvocation (← surroundings i) i with
  | .ok text =>
    IO.print text
    return 0
  | .error (.failed messages) =>
    IO.eprintln ("error: " ++ Refusal.join messages)
    return 1
  | .error (.fault cause) =>
    IO.eprintln cause.message
    return 101
  | .error (.usage _) => return 2

end NativeBridge

open NativeBridge in
def main (args : List String) : IO UInt32 := do
  match Invocation.ofWords args with
  | .ok i => report i
  | .error .displayHelp =>
    IO.print usageText
    return 0
  | .error _ =>
    IO.eprint usageText
    return 2
