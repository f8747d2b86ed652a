/-!
# Directories

A directory as a value: the files below it, each with its path and its content. Looking up a path
fails in the ways in which reading a file does. Lengths of names and paths are limited, and are
counted in bytes of UTF-8.
-/

namespace Scriptlet.CommandLine

/-- Why a source cannot be read. -/
inductive ReadError where
  | notFound
  | isDirectory
  | notADirectory
  | nameTooLong
  | notText
  | other (description : String)
  deriving DecidableEq, Repr, Inhabited

/-- How the system describes the error. -/
def ReadError.description : ReadError → String
  | notFound => "No such file or directory (os error 2)"
  | isDirectory => "Is a directory (os error 21)"
  | notADirectory => "Not a directory (os error 20)"
  | nameTooLong => "File name too long (os error 36)"
  | notText => "stream did not contain valid UTF-8"
  | other description => description

/-- A directory: the parts of the path of each file below it, and the content of the file. -/
structure Directory where
  files : List (List String × ByteArray)

namespace Directory

/-- The parts of a path. -/
def pathParts (path : String) : List String :=
  (path.toList.splitOn '/').map String.ofList

/-- The directory of files that are given by their paths. -/
def ofFiles (files : List (String × ByteArray)) : Directory :=
  ⟨files.map fun (path, content) => (pathParts path, content)⟩

/-- The content of the file at a path. -/
def file? (d : Directory) (parts : List String) : Option ByteArray :=
  (d.files.find? fun (path, _) => path == parts).map Prod.snd

/-- Whether a path leads to a directory: some file lies below it. -/
def isDirectory (d : Directory) (parts : List String) : Bool :=
  parts.isEmpty || d.files.any fun (path, _) => parts.isPrefixOf path && parts != path

/-- A part of a path that does not lead down. -/
def isStep (part : String) : Bool :=
  part = "" || part = "." || part = ".."

/-- Whether a part of a path is too long to be looked up in any directory. -/
def isLongName (part : String) : Bool :=
  255 < part.utf8ByteSize

/-- Whether a path is too long to be followed at all. -/
def isLongPath (path : String) : Bool :=
  4095 < path.utf8ByteSize

/-- What a path gives that leaves the directory upwards. Nothing is known there but the directories
on the way, so that its first part which leads down decides. -/
def outside (parts : List String) : ReadError :=
  match parts.find? fun part => !isStep part with
  | none => .isDirectory
  | some part => if isLongName part then .nameTooLong else .notFound

/-- Follows the parts of a path from a directory. Empty parts and `.` stay where they are, and `..`
goes back; none of them leads anywhere from a file. -/
def follow (d : Directory) (reached : List String) : List String → Except ReadError ByteArray
  | [] =>
    match d.file? reached with
    | some content => .ok content
    | none => .error (if d.isDirectory reached then .isDirectory else .notFound)
  | part :: parts =>
    if (d.file? reached).isSome then .error .notADirectory
    else if !d.isDirectory reached then .error .notFound
    else if isLongName part then .error .nameTooLong
    else if part = "" ∨ part = "." then d.follow reached parts
    else if part = ".." then
      if reached.isEmpty then .error (outside parts) else d.follow reached.dropLast parts
    else d.follow (reached ++ [part]) parts

/-- The content of the file that a path names. -/
def read (d : Directory) (path : String) : Except ReadError ByteArray :=
  if isLongPath path then .error .nameTooLong
  else if path.startsWith "/" then .error (outside (pathParts path))
  else d.follow [] (pathParts path)

end Directory

end Scriptlet.CommandLine
