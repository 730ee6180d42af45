import VariHist.Command.Execute
import VariHist.Events.File

/-!
# The command line

Reads what a command asks for, carries the command out, and does the writing and printing.
-/

namespace VariHist.Main

/-- The fault that an exception of the system stands for. -/
def faultOf : IO.Error → DiskFault
  | .noFileOrDirectory .. => .notFound
  | .alreadyExists .. => .alreadyExists
  | .inappropriateType .. => .isDirectory
  | _ => .notText

/-- The text of a file. -/
def readText (path : String) : IO (Except DiskFault String) := do
  try return .ok (← IO.FS.readFile path)
  catch e => return .error (faultOf e)

/-- The batches in the text of a file of events. -/
def batchesOf (path : String) : Except DiskFault String → Except Error (List EventBatch)
  | .error fault => .error (Command.eventsError path fault)
  | .ok text =>
    match EventBatch.parse? text with
    | some batches => .ok batches
    | none => .error (Command.noEvents path)

/-- The files that a command reads. -/
def sourcesOf : Command → IO Sources
  | .run config input .. | .inspect config input _ => do
    let description ← readText config
    let events ← readText input
    return { text := fun _ => description, events := fun path => batchesOf path events }
  | .version =>
    return { text := fun _ => .error .notFound, events := fun _ => .error (.disk .notFound) }

/-- Makes a change to the disk. -/
def write (w : DiskWrite) : IO (Option DiskFault) := do
  try
    match w with
    | .directory path => IO.FS.createDirAll path.text
    | .file path text => IO.FS.writeFile path.text text
    return none
  catch e => return some (faultOf e)

/-- Makes changes to the disk up to the first that fails. -/
def writeAll : List DiskWrite → IO (Option DiskFault)
  | [] => return none
  | w :: rest => do
    match ← write w with
    | none => writeAll rest
    | some fault => return some fault

/-- Carries out a command. -/
def carryOut (command : Command) : IO Outcome := do
  match command.effects (← sourcesOf command) with
  | .error f => return Command.failed f
  | .ok e => return Command.Effects.outcome e (← writeAll e.writes)

end VariHist.Main

open VariHist in
/-- Carries out the command of the command line. -/
def main (arguments : List String) : IO UInt32 := do
  match Command.parse? arguments with
  | none =>
    IO.eprint Command.usage
    return 2
  | some command =>
    let outcome ← Main.carryOut command
    IO.print outcome.stdout
    IO.eprint outcome.stderr
    return outcome.exitCode.toUInt32
