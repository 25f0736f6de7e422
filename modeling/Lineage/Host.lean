/-!
# Hosts

What a command needs from its surroundings: files, two streams of output and the time. Commands are
written against `Host`, so they run on a machine as well as on a tree of files in memory.
-/

namespace Lineage

/-- Why a file cannot be read or written. -/
inductive FileError where
  | notFound
  /-- A component of the path, or a path that ends in a slash, is a file. -/
  | notDirectory
  | isDirectory
  /-- A component of the path, or the whole path, is too long. -/
  | nameTooLong
  /-- The path has a character that no name can have. -/
  | nulInName
  /-- The content is not a text in UTF-8. -/
  | notText
  /-- Any other cause, in the words of the host. -/
  | other (text : String)
deriving DecidableEq, Repr

def FileError.message : FileError → String
  | .notFound => "No such file or directory (os error 2)"
  | .notDirectory => "Not a directory (os error 20)"
  | .isDirectory => "Is a directory (os error 21)"
  | .nameTooLong => "File name too long (os error 36)"
  | .nulInName => "file name contained an unexpected NUL byte"
  | .notText => "stream did not contain valid UTF-8"
  | .other text => text

/-- The surroundings of a command, in a monad of its own. -/
structure Host (m : Type → Type) where
  /-- The bytes of a file. -/
  read : String → m (Except FileError ByteArray)
  /-- Whether a path leads to a file or a directory. -/
  present : String → m Bool
  /-- Makes a text the content of a file. No directory is made for it. -/
  write : String → String → m (Except FileError Unit)
  /-- Prints a text to the standard output. -/
  print : String → m Unit
  /-- Prints a text to the error output. -/
  printError : String → m Unit
  /-- The time, as it is written into reports. -/
  now : m String

/-- The text of a file. -/
def Host.readText [Monad m] (host : Host m) (path : String) : m (Except FileError String) := do
  match ← host.read path with
  | .error e => return .error e
  | .ok bytes =>
    match String.fromUTF8? bytes with
    | some text => return .ok text
    | none => return .error .notText

end Lineage
