import Scriptlet.CommandLine.Directory
import Scriptlet.CommandLine.Log
import Scriptlet.CommandLine.Options
import Scriptlet.Session

/-!
# The command line program

Reads a program, runs it and prints its value. Printed text and the value go to standard output; the
log, the program that was read if it is asked for, and an error go to standard error.
-/

namespace Scriptlet.CommandLine

/-- What a process leaves behind. -/
structure Result where
  code : Nat
  stdout : String
  stderr : String
  deriving DecidableEq, Repr, Inhabited

/-- The version of the program. -/
def version : String := "0.1.0"

/-- The text that explains the command line. -/
def usage : String :=
  "Usage: " ++ programName ++ " [OPTIONS] [INPUT]\n\n" ++
  "Options:\n" ++
  "      --dump-ast    Print the parsed program to stderr before running it\n" ++
  "  -v, --verbose...  Raise log verbosity\n" ++
  "  -h, --help        Print help\n" ++
  "  -V, --version     Print version\n"

/-- Texts, each as a line of its own. -/
def asLines (texts : List String) : String :=
  String.join (texts.map fun text => text ++ "\n")

/-- The line that reports an error. -/
def errorLine (message : String) : String :=
  "error: " ++ message ++ "\n"

/-- The text of a source. -/
def decode (content : ByteArray) : Except ReadError String :=
  match String.fromUTF8? content with
  | some text => .ok text
  | none => .error .notText

/-- What a run of a program leaves behind, given its text on standard error before the run. -/
def finish (filter : Filter) (before : String) (result : Except ScriptError Value) (m : Machine) :
    Result :=
  let output := String.ofList m.sink.contents
  let log := before ++ asLines (logLines (filter.levelOf reporterName) m.journal.events)
  match result with
  | .ok v => ⟨0, output ++ String.ofList (Value.text v) ++ "\n", log⟩
  | .error reason => ⟨1, output, log ++ errorLine reason.message⟩

/-- Reads and runs source text. -/
def executeText (fuel : Nat) (filter : Filter) (dumpTree : Bool) (text : String) : Option Result :=
  match Program.ofString text with
  | .error reason => some ⟨1, "", errorLine reason.message⟩
  | .ok p =>
    let parsed :=
      if (filter.levelOf programName).enabled .info then parsedLine p ++ "\n" else ""
    let tree := if dumpTree then p.display else ""
    let journal :=
      if (filter.levelOf reporterName).enabled .debug then Journal.attentive else Journal.silent
    (runProgram fuel p (.fresh .unlimited journal)).map fun (result, m) =>
      finish filter (parsed ++ tree) result m

/-- Runs the content of a source, or reports why it cannot be read. -/
def execute (fuel : Nat) (filter : Filter) (options : Options)
    (content : Except ReadError ByteArray) : Option Result :=
  match content.bind decode with
  | .error reason =>
    some ⟨1, "", errorLine
      ("failed to read " ++ options.source.name ++ ": " ++ reason.description)⟩
  | .ok text => executeText fuel filter options.dumpTree text

/-- What a command line leaves behind that asks for no run. -/
def Ending.result : Ending → Result
  | help => ⟨0, usage, ""⟩
  | version => ⟨0, programName ++ " " ++ CommandLine.version ++ "\n", ""⟩
  | misuse => ⟨2, "", usage⟩

/-- A process in a directory of files: its arguments, its standard input and the text of the log
filter that is set outside of it, if one is. -/
structure Invocation where
  arguments : List String
  stdin : ByteArray
  directory : Directory
  logFilter : Option String

namespace Invocation

/-- The content of a source. -/
def read (i : Invocation) : Source → Except ReadError ByteArray
  | .standardInput => .ok i.stdin
  | .file path => i.directory.read path

/-- What the process leaves behind. -/
def run (fuel : Nat) (i : Invocation) : Option Result :=
  match Options.ofArguments i.arguments with
  | .error ending => some ending.result
  | .ok options =>
    execute fuel (Filter.choose i.logFilter options.verbosity) options (i.read options.source)

end Invocation

end Scriptlet.CommandLine
