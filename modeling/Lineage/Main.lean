import Std.Time.Format
import Lineage.Command.Run

/-!
# The command line

Runs a command on the files, the streams and the clock of the machine.
-/

namespace Lineage.Machine

/-- The cause of a failed file operation. -/
def fileError : IO.Error → FileError
  | .noFileOrDirectory .. => .notFound
  | .inappropriateType _ 21 _ => .isDirectory
  | .inappropriateType .. => .notDirectory
  | .invalidArgument _ 36 _ => .nameTooLong
  | .permissionDenied .. => .other "Permission denied (os error 13)"
  | e => .other (toString e)

/-- The result of a file operation, or why it failed. -/
def attempt (operation : IO α) : IO (Except FileError α) := do
  try
    return .ok (← operation)
  catch e =>
    return .error (fileError e)

/-- Whether a path can be opened, or is refused although it is there. -/
def present (path : String) : IO Bool := do
  match ← attempt (IO.FS.Handle.mk path .read) with
  | .ok _ => return true
  | .error e => return e != .notFound && e != .notDirectory

/-- The time in universal time, with an offset. -/
def now : IO String := do
  let time := Std.Time.DateTime.ofTimestamp (← Std.Time.Timestamp.now) .UTC
  return time.format "uuuu-MM-dd'T'HH:mm:ss.SSSSSSSSSxxx"

def host : Host IO where
  read path := attempt (IO.FS.readBinFile path)
  present := present
  write path text := attempt (IO.FS.writeFile path text)
  print := IO.print
  printError := IO.eprint
  now := now

end Lineage.Machine

def main (args : List String) : IO UInt32 := Lineage.runCommandLine Lineage.Machine.host args
