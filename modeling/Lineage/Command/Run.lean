import Lineage.Command.Answer

/-!
# Running commands

A command line is read, its workspace loaded and its answer printed. The exit code is 0 for success,
1 for a defect or an error, and 2 for a command line that cannot be read.
-/

namespace Lineage

namespace Command

/-- Writes the derived maps to a file, or answers with them (`maps_command`). -/
def writeMaps [Monad m] (host : Host m) (w : Workspace) :
    Option String → ExceptT CommandError m Answer
  | none => return { lines := [w.mapsText] }
  | some path => do
    ExceptT.mk (return (← host.write path w.mapsText).mapError (.maps path))
    host.printError ("Maps saved to: " ++ path ++ "\n")
    return {}

/-- Writes the report to a file, if there is one to write it to, and answers with it
(`validate_command`). -/
def writeReport [Monad m] (host : Host m) (w : Workspace) (output : Option String) :
    ExceptT CommandError m Answer := do
  let now ← host.now
  let report ← ExceptT.mk (return (w.manifest.validate? w.config now).mapError .validation)
  if let some path := output then
    ExceptT.mk (return (← report.save host path).mapError .report)
    host.printError ("Report saved to: " ++ path ++ "\n")
  return Workspace.validated report

/-- The answer to a command (in `main`). -/
def answer [Monad m] (host : Host m) (w : Workspace) : Command → ExceptT CommandError m Answer
  | .plan selectors withTests => ExceptT.mk (pure (w.plan selectors withTests))
  | .impact node => ExceptT.mk (pure (w.impact node))
  | .resolve reference => ExceptT.mk (pure (w.resolve reference))
  | .maps output => writeMaps host w output
  | .validate output => writeReport host w output
  | .cycle => ExceptT.mk (pure w.cycle)

/-- What is printed about a command line that cannot be read. -/
def usage : String :=
  "Usage: lineage [--config FILE] [--manifest FILE] [--incremental] [--verbose] COMMAND\n\n"
    ++ "Commands:\n"
    ++ "  plan [--select SELECTOR]... [--with-tests]\n"
    ++ "  impact NODE\n"
    ++ "  resolve ref NAME [--package P] [--version V] [--from-package P]\n"
    ++ "  resolve source SOURCE TABLE [--from-package P]\n"
    ++ "  resolve doc NAME [--package P] [--from-package P]\n"
    ++ "  resolve macro NAME [--package P]\n"
    ++ "  resolve materialization NAME\n"
    ++ "  maps [--output FILE]\n"
    ++ "  validate [--output FILE]\n"
    ++ "  cycle\n"

end Command

/-- Prints an answer. The result is the exit code. -/
def Answer.print [Monad m] (host : Host m) (a : Answer) : m UInt32 := do
  host.print (String.join (a.lines.map (· ++ "\n")))
  match a.ending with
  | .success => return 0
  | .defect => return 1
  | .error e => do
    host.printError e.printed
    return 1

/-- Runs a command on its workspace. -/
def Invocation.run [Monad m] (host : Host m) (i : Invocation) : m UInt32 := do
  let outcome ← ExceptT.run do
    let workspace ← Workspace.load host i.settings
    i.command.answer host workspace
  (Answer.ofExcept outcome).print host

/-- Runs a command line. The result is the exit code. -/
def runCommandLine [Monad m] (host : Host m) (words : List String) : m UInt32 := do
  match Invocation.parse? words with
  | some invocation => invocation.run host
  | none => do
    host.printError Command.usage
    return 2

end Lineage
