import VariHist.Analysis.Decode
import VariHist.Command.Host
import VariHist.Command.Options
import VariHist.Command.Report
import VariHist.Events.Batch

/-!
# Carrying out commands

A command reads a description and events, and tells what is to be written to the disk and what is to
be printed after that.  How things are read and written is not decided here.
-/

namespace VariHist

/-- What a command can read. -/
structure Sources where
  /-- The text of a file. -/
  text : String → Except DiskFault String
  /-- The events in a file. -/
  events : String → Except Error (List EventBatch)
  /-- The description that a text stands for, unchecked. -/
  description : String → Except ConfigFault Analysis := Analysis.read

/-- What a command wants done. -/
structure Effects where
  writes : List DiskWrite
  /-- Is a failing write a failure of the output tree? -/
  writesTree : Bool
  printed : String

/-- What came of a command. -/
structure Outcome where
  exitCode : Nat
  stdout : String
  stderr : String

namespace Command

/-- The error for a file of events that cannot be read, given its path.  That a directory is no such
file shows only when its content is asked for. -/
def eventsError (path : String) : DiskFault → Error
  | .isDirectory => .events s!"{path}: External: {DiskFault.isDirectory.message}"
  | fault => .disk fault

/-- The error for a file that holds something else than events, given its path. -/
def noEvents (path : String) : Error :=
  .events s!"{path}: Parquet error: Invalid Parquet file. Corrupt footer"

/-- The description at a path, once it is checked. -/
def loadDescription (sources : Sources) (path : String) : Except Error Analysis := do
  let text ← (sources.text path).mapError .disk
  let description ← (sources.description text).mapError .config
  description.check.mapError .config
  return description

/-- The table of the events at a path. -/
def loadTable [CellCast] (sources : Sources) (path : String) :
    Except Error (EventTable (SlottedHistogram Float)) := do
  EventTable.ofBatches (← sources.events path)

/-- The description and the table of a command. -/
def load [CellCast] (sources : Sources) (config input : String) :
    Except Failure (Analysis × EventTable (SlottedHistogram Float)) := do
  let description ← (loadDescription sources config).mapError fun e =>
    (Failure.ofError e).during s!"failed to read config {config}"
  let table ← (loadTable sources input).mapError fun e =>
    (Failure.ofError e).during s!"failed to read input {input}"
  return (description, table)

/-- What is written for a tree: one file with everything, and the directory it is in, or a directory
with everything. -/
def treeWrites (json : Bool) (output : DiskPath) (tree : HistogramTree Float) : List DiskWrite :=
  if json then
    let parent := output.parent?.filter fun parent => !parent.text.isEmpty
    parent.toList.map .directory ++ [.file output tree.toJson.pretty]
  else tree.writes output

/-- What is printed when the version is asked for. -/
def versionText : String :=
  "nextstat-syst 0.1.0\n"

/-- The effects of a command. -/
def effects [Machine] [CellCast] (sources : Sources) : Command → Except Failure Effects
  | .run config input output threads json => do
    let (description, table) ← load sources config input
    let (tree, report) ← (Step.answer description.run (table.withThreads threads)).mapError
      Failure.ofError
    return ⟨treeWrites json (.ofText output) tree, !json, report.toJson.sortKeys.pretty ++ "\n"⟩
  | .inspect config input output => do
    let (description, table) ← load sources config input
    let text := (inspectionToJson table (description.registry table)).sortKeys.pretty
    return match output with
      | some path => ⟨[.file (.ofText path) text], false, ""⟩
      | none => ⟨[], false, text ++ "\n"⟩
  | .version => return ⟨[], false, versionText⟩

/-- What is printed for arguments that make no command. -/
def usage : String :=
  "usage: run -c CONFIG -i INPUT -o OUTPUT [--threads N] [--json]\n" ++
    "       inspect -c CONFIG -i INPUT [-o OUTPUT]\n"

/-- The outcome of a command that failed. -/
def failed (f : Failure) : Outcome :=
  ⟨1, "", f.text⟩

/-- The outcome of effects, once the writes are done. -/
def Effects.outcome (e : Effects) : Option DiskFault → Outcome
  | none => ⟨0, e.printed, ""⟩
  | some fault =>
    if e.writesTree then failed (Failure.ofError (.disk fault)) else failed ⟨fault.message, []⟩

/-- The outcome of a command line on a disk, and the disk afterwards. -/
def execute [Machine] [CellCast] (sources : Sources) (disk : Disk) (arguments : List String) :
    Outcome × Disk :=
  match parse? arguments with
  | none => (⟨2, "", usage⟩, disk)
  | some command =>
    match command.effects sources with
    | .error f => (failed f, disk)
    | .ok e =>
      let (disk, fault) := disk.writeAll e.writes
      (Effects.outcome e fault, disk)

end Command

end VariHist
