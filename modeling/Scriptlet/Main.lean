import Scriptlet.CommandLine.Execute

/-!
# The program

The command line program in the file system it is started in.
-/

namespace Scriptlet.CommandLine

/-- Everything that a stream still holds. -/
partial def readStream (stream : IO.FS.Stream) (before : ByteArray) : IO ByteArray := do
  let chunk ← stream.read 65536
  if chunk.isEmpty then return before else readStream stream (before ++ chunk)

/-- The cause of a failed read. System error codes come with either sign. -/
def ReadError.ofIO : IO.Error → ReadError
  | .noFileOrDirectory _ _ _ => .notFound
  | .inappropriateType _ code _ =>
    if code = 21 ∨ code + 21 = 0 then .isDirectory else .notADirectory
  | error@(.invalidArgument _ code _) =>
    if code = 36 ∨ code + 36 = 0 then .nameTooLong else .other (toString error)
  | error => .other (toString error)

/-- The content of a source in the file system. -/
def readSource (source : Source) : IO (Except ReadError ByteArray) := do
  try
    match source with
    | .standardInput => return .ok (← readStream (← IO.getStdin) .empty)
    | .file path => return .ok (← IO.FS.readBinFile path)
  catch error => return .error (.ofIO error)

/-- Writes a result to the standard streams. -/
def Result.emit (result : Result) : IO UInt32 := do
  IO.print result.stdout
  IO.eprint result.stderr
  return result.code.toUInt32

/-- Does what a command line asks for. -/
def start (arguments : List String) : IO UInt32 := do
  match Options.ofArguments arguments with
  | .error ending => ending.result.emit
  | .ok options =>
    let filter := Filter.choose (← IO.getEnv "RUST_LOG") options.verbosity
    match execute ampleFuel filter options (← readSource options.source) with
    | some result => result.emit
    | none => return 1

end Scriptlet.CommandLine

/-- Runs the program. -/
def main (arguments : List String) : IO UInt32 :=
  Scriptlet.CommandLine.start arguments
