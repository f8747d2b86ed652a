/-!
# Command line options

How a command line is understood. Arguments are read from left to right. A request for help or for
the version, or the first mistake, ends the reading at once.
-/

namespace Scriptlet.CommandLine

/-- What a command line asks for when it asks to run a program. -/
structure Options where
  /-- The file to read, as it was named. -/
  input : Option String
  /-- Whether to show the program that was read. -/
  dumpTree : Bool
  /-- How often more log lines were asked for. -/
  verbosity : Nat
  deriving DecidableEq, Repr, Inhabited

/-- Why reading ends before the last argument. -/
inductive Ending where
  | help
  | version
  | misuse
  deriving DecidableEq, Repr, Inhabited

/-- An option without a value. -/
inductive Flag where
  | dumpTree
  | verbose
  | help
  | version
  deriving DecidableEq, Repr, Inhabited

namespace Flag

/-- The flag of a long name. Names are not abbreviated and take no values. -/
def ofLong? (name : String) : Option Flag :=
  match name with
  | "dump-ast" => some dumpTree
  | "verbose" => some verbose
  | "help" => some help
  | "version" => some version
  | _ => none

/-- The flag of a letter. -/
def ofShort? (letter : Char) : Option Flag :=
  match letter with
  | 'v' => some verbose
  | 'h' => some help
  | 'V' => some version
  | _ => none

end Flag

/-- A command line argument before `--`. -/
inductive Argument where
  /-- Ends the options. -/
  | endOfOptions
  /-- Flags in order, where `none` stands for an unknown one. -/
  | flags (flags : List (Option Flag))
  | operand (text : String)

/-- What an argument is by its first characters. A single `-` is an operand. -/
def Argument.ofString (text : String) : Argument :=
  match text.toList with
  | ['-', '-'] => .endOfOptions
  | '-' :: '-' :: name => .flags [Flag.ofLong? (String.ofList name)]
  | '-' :: letter :: letters => .flags ((letter :: letters).map Flag.ofShort?)
  | _ => .operand text

namespace Options

/-- Nothing asked for yet. -/
def initial : Options := ⟨none, false, 0⟩

/-- Takes a flag into account. The tree cannot be asked for twice. -/
def addFlag (o : Options) : Option Flag → Except Ending Options
  | some .dumpTree => if o.dumpTree then .error .misuse else .ok { o with dumpTree := true }
  | some .verbose => .ok { o with verbosity := o.verbosity + 1 }
  | some .help => .error .help
  | some .version => .error .version
  | none => .error .misuse

/-- Takes several flags into account. -/
def addFlags (o : Options) : List (Option Flag) → Except Ending Options
  | [] => .ok o
  | flag :: flags => do
    let o ← o.addFlag flag
    o.addFlags flags

/-- Takes a file name into account. There cannot be two. -/
def addOperand (o : Options) (text : String) : Except Ending Options :=
  if o.input.isSome then .error .misuse else .ok { o with input := some text }

/-- Refuses an empty file name. -/
def checkInput (o : Options) : Except Ending Options :=
  if o.input = some "" then .error .misuse else .ok o

/-- Reads arguments that are all operands. -/
def readOperands (o : Options) : List String → Except Ending Options
  | [] => o.checkInput
  | text :: rest => do
    let o ← o.addOperand text
    o.readOperands rest

/-- Reads arguments. A file name is checked when the next option or the end comes. -/
def readArguments (o : Options) : List String → Except Ending Options
  | [] => o.checkInput
  | text :: rest =>
    match Argument.ofString text with
    | .endOfOptions => o.readOperands rest
    | .operand text => do
      let o ← o.addOperand text
      o.readArguments rest
    | .flags flags => do
      let o ← o.checkInput
      let o ← o.addFlags flags
      o.readArguments rest

/-- What a command line asks for. -/
def ofArguments (arguments : List String) : Except Ending Options :=
  initial.readArguments arguments

end Options

/-- Where a program is read from. -/
inductive Source where
  | standardInput
  | file (path : String)
  deriving DecidableEq, Repr, Inhabited

/-- The source that the options name: standard input if they name none or `-`. -/
def Options.source (o : Options) : Source :=
  match o.input with
  | none => .standardInput
  | some path => if path = "-" then .standardInput else .file path

/-- How messages name a source. -/
def Source.name : Source → String
  | standardInput => "<stdin>"
  | file path => path

end Scriptlet.CommandLine
