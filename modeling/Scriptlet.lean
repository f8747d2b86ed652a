import Scriptlet.CommandLine.Execute
import Scriptlet.Main
import Scriptlet.Proofs.Calls.ByValue
import Scriptlet.Proofs.CommandLine.Agreement
import Scriptlet.Proofs.Effects.Globals
import Scriptlet.Proofs.Environment.Assignment
import Scriptlet.Proofs.Environment.Operations
import Scriptlet.Proofs.Errors.Located
import Scriptlet.Proofs.Eval.Reachable
import Scriptlet.Proofs.Exact.Lockstep
import Scriptlet.Proofs.Layout.LineBreaks
import Scriptlet.Proofs.Layout.Padding
import Scriptlet.Proofs.Locality.Plugging
import Scriptlet.Proofs.Locality.StrayText
import Scriptlet.Proofs.Output.Truncation
import Scriptlet.Proofs.Precedence.Chains
import Scriptlet.Proofs.Printer.RoundTrip
import Scriptlet.Proofs.Renaming.Parameters
import Scriptlet.Proofs.Runs.EntryPoint
import Scriptlet.Proofs.Runs.Hoisting
import Scriptlet.Proofs.Runs.Malformed
import Scriptlet.Proofs.Runs.Termination
import Scriptlet.Proofs.Scopes.Callers
import Scriptlet.Proofs.Trace.Run
import Scriptlet.Session
import Scriptlet.Proofs.Parser.Repetition
import Scriptlet.Proofs.Parser.Recursion
import Scriptlet.Proofs.Errors.Scan
import Scriptlet.Proofs.Errors.Unread
import Scriptlet.Proofs.Errors.WordStart
import Scriptlet.Proofs.Completion.Rules
import Scriptlet.Proofs.Completion.Constructs
import Scriptlet.Proofs.Completion.EndOfInput
