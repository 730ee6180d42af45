import VariHist.Fault
import VariHist.Output.Entries
import VariHist.Output.Path

/-!
# Disks

A disk holds files and directories by name.  A path leads from directory to directory, one step
after another, and its last step names what is read or made.  What a program does to a disk is a
list of writes; the first one that fails ends it, and what was made until then stays.
-/

namespace VariHist

/-- What a name on a disk stands for. -/
inductive DiskEntry where
  | file (text : String)
  /-- The entries of a directory are in order of their names. -/
  | directory (entries : List (String × DiskEntry))

namespace DiskEntry

/-- The entry at a place below an entry; a place is the names on the way to it. -/
def at? : List String → DiskEntry → Option DiskEntry
  | [], e => some e
  | name :: place, .directory entries => (entries.lookup name).bind (at? place)
  | _ :: _, .file _ => none

/-- Puts an entry at a place, with the directories on the way to it.  A file has nothing below. -/
def put (entry : DiskEntry) : List String → DiskEntry → DiskEntry
  | [], _ => entry
  | name :: place, .directory entries =>
    let below := (entries.lookup name).getD (.directory [])
    .directory (putInOrder name (put entry place below) entries)
  | _ :: _, .file text => .file text

mutual

/-- The files at or below an entry, by their places. -/
def files : DiskEntry → List (List String × String)
  | .file text => [([], text)]
  | .directory entries => filesAmong entries

/-- The files at or below several entries. -/
def filesAmong : List (String × DiskEntry) → List (List String × String)
  | [] => []
  | (name, e) :: rest =>
    ((files e).map fun (place, text) => (name :: place, text)) ++ filesAmong rest

end

mutual

/-- The directories at or below an entry that hold nothing, by their places. -/
def emptyDirectories : DiskEntry → List (List String)
  | .file _ => []
  | .directory entries => if entries.isEmpty then [[]] else emptyAmong entries

/-- The directories at or below several entries that hold nothing. -/
def emptyAmong : List (String × DiskEntry) → List (List String)
  | [] => []
  | (name, e) :: rest => (emptyDirectories e).map (name :: ·) ++ emptyAmong rest

end

end DiskEntry

/-- A change to a disk. -/
inductive DiskWrite where
  /-- Makes a directory and the directories on the way to it that are missing. -/
  | directory (path : DiskPath)
  /-- Makes a file, in place of an older one. -/
  | file (path : DiskPath) (text : String)
  deriving Repr

/-- What a disk asks of the names in its directories and of the texts of paths. -/
structure DiskRules where
  checkName : String → Except DiskFault Unit
  checkPath : String → Except DiskFault Unit

namespace DiskRules

/-- The most bytes that a name may have. -/
def maxNameBytes : Nat := 255

/-- The most bytes that the text of a path may have. -/
def maxPathBytes : Nat := 4095

/-- No text may hold a NUL, and the lengths are bounded. -/
def usual : DiskRules where
  checkName name := if maxNameBytes < name.utf8ByteSize then .error .nameTooLong else .ok ()
  checkPath text :=
    if text.toList.contains '\x00' then .error .nulInName
    else if maxPathBytes < text.utf8ByteSize then .error .nameTooLong
    else .ok ()

end DiskRules

/-- The entries of a disk from its root, the place of the working directory, and what the disk asks
of names. -/
structure Disk where
  root : DiskEntry
  home : List String
  rules : DiskRules

/-- A directory that a path has led to. -/
structure OpenDirectory where
  /-- The names on the way from the root to it, the last one first. -/
  names : List String
  entries : List (String × DiskEntry)

/-- What the last step of a path names. -/
inductive DiskTarget where
  | directory
  | file (place : List String) (text : String)
  /-- Nothing is there yet, but the directory that it would be in is. -/
  | free (place : List String)

namespace Disk

/-- A disk with an empty working directory at a place. -/
def empty (home : List String) : Disk :=
  ⟨DiskEntry.put (.directory []) home (.directory []), home, .usual⟩

/-- Puts an entry at a place. -/
def put (d : Disk) (entry : DiskEntry) (place : List String) : Disk :=
  { d with root := entry.put place d.root }

/-- The directory whose names from the root, the last one first, are given. -/
def directoryOf (d : Disk) (names : List String) : OpenDirectory :=
  match d.root.at? names.reverse with
  | some (.directory entries) => ⟨names, entries⟩
  | _ => ⟨names, []⟩

/-- Refuses the paths that lead nowhere, whatever is on the disk. -/
def checkPath (d : Disk) (p : DiskPath) : Except DiskFault Unit :=
  if p.text.isEmpty then .error .notFound else d.rules.checkPath p.text

/-- What a step from a directory names. -/
def target (d : Disk) (here : OpenDirectory) (step : String) : Except DiskFault DiskTarget :=
  if step = "." || step = ".." then .ok .directory
  else do
    d.rules.checkName step
    match here.entries.lookup step with
    | some (.directory _) => return .directory
    | some (.file text) => return .file (step :: here.names).reverse text
    | none => return .free (step :: here.names).reverse

/-- Takes a step from a directory into another. -/
def enter (d : Disk) (here : OpenDirectory) (step : String) : Except DiskFault OpenDirectory :=
  if step = "." then .ok here
  else if step = ".." then .ok (d.directoryOf here.names.tail)
  else do
    d.rules.checkName step
    match here.entries.lookup step with
    | some (.directory entries) => return ⟨step :: here.names, entries⟩
    | some (.file _) => throw .notDirectory
    | none => throw .notFound

/-- The directory from which the last step of a path is taken. -/
def openParent (d : Disk) (p : DiskPath) : Except DiskFault OpenDirectory := do
  d.checkPath p
  p.steps.dropLast.foldlM d.enter (d.directoryOf (if p.isAbsolute then [] else d.home.reverse))

/-- What a path leads to. -/
def find (d : Disk) (p : DiskPath) : Except DiskFault DiskTarget := do
  let here ← d.openParent p
  match p.steps.getLast? with
  | some step => d.target here step
  | none => return .directory

/-- Does a path lead to a directory? -/
def isDirectory (d : Disk) (p : DiskPath) : Bool :=
  match d.find p with
  | .ok .directory => true
  | _ => false

/-- Makes a directory, in one that is there. -/
def makeDirectory (d : Disk) (p : DiskPath) : Except DiskFault Disk := do
  match ← d.find p with
  | .free place => return d.put (.directory []) place
  | _ => .error .alreadyExists

/-- Makes a directory, and before it the directories on the way to it that are missing.  They are
the parents of the path as a text.  A directory that is there already is as good as made. -/
def makeDirectories (p : DiskPath) (d : Disk) : Disk × Option DiskFault :=
  let result (d : Disk) : Except DiskFault Disk → Disk × Option DiskFault
    | .ok made => (made, none)
    | .error fault => (d, if d.isDirectory p then none else some fault)
  match _h : p.parent? with
  | none => (d, none)
  | some parent =>
    match d.makeDirectory p with
    | .error .notFound =>
      match makeDirectories parent d with
      | (d, none) => result d (d.makeDirectory p)
      | failed => failed
    | made => result d made
termination_by p.pieces.length
decreasing_by exact DiskPath.length_pieces_lt_of_parent? _h

/-- Makes a file, in a directory that is there. -/
def writeFile (d : Disk) (p : DiskPath) (text : String) : Except DiskFault Disk := do
  let _ ← d.openParent p
  if p.endsInSlash then .error .isDirectory
  match ← d.find p with
  | .directory => .error .isDirectory
  | .file place _ | .free place => return d.put (.file text) place

/-- Makes one change; the disk afterwards, and why the change failed if it did. -/
def write (d : Disk) : DiskWrite → Disk × Option DiskFault
  | .directory path => d.makeDirectories path
  | .file path text =>
    match d.writeFile path text with
    | .ok d => (d, none)
    | .error fault => (d, some fault)

/-- Makes changes one after another, up to the first that fails. -/
def writeAll (d : Disk) : List DiskWrite → Disk × Option DiskFault
  | [] => (d, none)
  | w :: rest =>
    match d.write w with
    | (d, none) => d.writeAll rest
    | failed => failed

/-- The text of the file that a path leads to. -/
def read (d : Disk) (p : DiskPath) : Except DiskFault String := do
  match ← d.find p with
  | .file _ text => if p.endsInSlash then .error .notDirectory else return text
  | .directory => .error .isDirectory
  | .free _ => .error .notFound

end Disk

end VariHist
