import Scriptlet.CommandLine.Filter
import Scriptlet.Eval.Event
import Scriptlet.Program.Printer

/-!
# The log

The lines that a run writes to its log at a given level. A line names the calls that are open when
it is written, outermost first; calls are recorded from the level `debug` on, like everything
else that a run reports.
-/

namespace Scriptlet.CommandLine

/-- The name of the program, which its log lines carry. -/
def programName : String := "toys"

/-- The part of the program that reports the events of a run. -/
def reporterName : String := programName ++ "::interpreter"

/-- The line that says that a program was read. -/
def parsedLine (p : Program) : String :=
  "INFO " ++ programName ++ ": parsed program definitions=" ++ toString p.definitions.length

/-- A line of a run, with the calls that are open, the innermost first. -/
def reportLine (level : String) (calls : List String) (text : String) : String :=
  level ++ " " ++ ":".intercalate calls.reverse ++ ": " ++ reporterName ++ ": " ++ text

/-- How an open call of the program is named in a line. -/
def mainSpan (definitions : Nat) : String :=
  "call_main\x7bdefinitions=" ++ toString definitions ++ "\x7d"

/-- How an open call of a function is named in a line. -/
def callSpan (function : String) (arity : Nat) : String :=
  "call_function\x7bname=\"" ++ function ++ "\" arity=" ++ toString arity ++ "\x7d"

/-- The lines of a run at a level of at least `debug`, given the calls that are open. -/
def reportLines (limit : Level) : List String → List Event → List String
  | _, [] => []
  | calls, event :: events =>
    match event with
    | .enterMain n => reportLines limit (mainSpan n :: calls) events
    | .enterCall f n => reportLines limit (callSpan f n :: calls) events
    | .exitMain | .exitCall => reportLines limit calls.tail events
    | .evaluate e =>
      if limit.enabled .trace then
        reportLine "TRACE" calls ("interpret expression=" ++ e.display) ::
          reportLines limit calls events
      else reportLines limit calls events
    | .globalDefined x v =>
      reportLine "DEBUG" calls
        ("defined global name=\"" ++ x ++ "\" value=" ++ String.ofList (Value.text v)) ::
          reportLines limit calls events
    | .mainReturned v =>
      reportLine "DEBUG" calls ("main returned result=" ++ String.ofList (Value.text v)) ::
        reportLines limit calls events

/-- The lines that the events of a run leave in the log. -/
def logLines (limit : Level) (events : List Event) : List String :=
  if limit.enabled .debug then reportLines limit [] events else []

end Scriptlet.CommandLine
