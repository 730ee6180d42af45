import VariHist.Histogram.Spectrum
import VariHist.Output.Entries
import VariHist.Step

/-!
# Trees of histograms

A directory holds histograms and further directories, both by name and in the order of their names.
A directory is made when something is put into it.  A name in a directory is taken once a histogram
or a directory has it.
-/

namespace VariHist

/-- A directory of histograms and directories. -/
inductive HistogramTree (ν : Type) where
  | node (dirs : List (String × HistogramTree ν)) (histograms : List (String × Spectrum ν))

/-- May the text name a directory or a histogram?  It must not be empty, refer to a directory by
its place, or hold a separator. -/
def isSegment (segment : String) : Bool :=
  !(segment.isEmpty || segment = "." || segment = ".." ||
    segment.toList.any fun c => c = '/' || c = '\\')

namespace HistogramTree

variable {ν : Type}

/-- A directory that holds nothing. -/
def empty : HistogramTree ν :=
  .node [] []

/-- The directories in a directory. -/
def dirs : HistogramTree ν → List (String × HistogramTree ν)
  | .node dirs _ => dirs

/-- The histograms in a directory itself. -/
def histograms : HistogramTree ν → List (String × Spectrum ν)
  | .node _ histograms => histograms

/-- The directory at a path. -/
def dir? : List String → HistogramTree ν → Option (HistogramTree ν)
  | [], t => some t
  | segment :: path, t => (t.dirs.lookup segment).bind (dir? path)

/-- The histogram of a name in the directory at a path. -/
def get? (t : HistogramTree ν) (path : List String) (name : String) : Option (Spectrum ν) :=
  (t.dir? path).bind fun d => d.histograms.lookup name

/-- Does the directory itself hold something of this name? -/
def holds (t : HistogramTree ν) (name : String) : Bool :=
  (t.histograms.lookup name).isSome || (t.dirs.lookup name).isSome

/-- Does the directory at a path hold something of this name? -/
def isTaken (t : HistogramTree ν) (path : List String) (name : String) : Bool :=
  (t.dir? path).any fun d => d.holds name

/-- Changes the directory at a path, making the directories on the way.  A segment that names no
directory ends the walk; the directories made until then stay. -/
def alterAt (path : List String) (change : HistogramTree ν → Except Error (HistogramTree ν)) :
    Step (HistogramTree ν) Unit := fun t =>
  match path with
  | [] => Step.attempt change t
  | segment :: path =>
    if isSegment segment then
      let below := (t.dirs.lookup segment).getD empty
      match alterAt path change below with
      | .ok _ below => .ok () (.node (putInOrder segment below t.dirs) t.histograms)
      | .error e below => .error e (.node (putInOrder segment below t.dirs) t.histograms)
    else .error (.config (.badSegment segment)) t

/-- Makes a directory and those on the way to it. -/
def makeDir (path : List String) : Step (HistogramTree ν) Unit :=
  alterAt path .ok

/-- Puts a histogram into the directory at a path, under its own name, which must be free. -/
def insert (path : List String) (h : Spectrum ν) : Step (HistogramTree ν) Unit :=
  if isSegment h.name then
    alterAt path fun d =>
      if d.holds h.name then .error (.config (.entryTaken h.name path))
      else .ok (.node d.dirs (putInOrder h.name h d.histograms))
  else throw (.config (.badSegment h.name))

mutual

/-- The number of histograms in a tree. -/
def count : HistogramTree ν → Nat
  | .node dirs histograms => histograms.length + countAll dirs

/-- The number of histograms in several trees. -/
def countAll : List (String × HistogramTree ν) → Nat
  | [] => 0
  | (_, t) :: rest => count t + countAll rest

end

/-- Does a tree hold no histogram?  It may hold directories. -/
def isEmpty (t : HistogramTree ν) : Bool :=
  t.count = 0

end HistogramTree

end VariHist
