import VariHist.Histogram.Axis
import VariHist.Output.Disk
import VariHist.Output.Json
import VariHist.Output.Tree

/-!
# Written histograms

Spectra, axes and requests for histograms are written as JSON objects of their fields.  A tree is
written either as one JSON object, with its directories and its histograms where there are any, or
onto a disk, with one directory per directory and one file `name.json` per histogram.
-/

namespace VariHist

/-- A spectrum as a JSON value. -/
def Spectrum.toJson (s : Spectrum Float) : Json :=
  let numbers (xs : List Float) : Json := .list (xs.map .number)
  .object [
    ("name", .text s.name),
    ("title", .text s.title),
    ("n_bins", .natural s.bins.toNat),
    ("x_min", .number s.lo),
    ("x_max", .number s.hi),
    ("bin_edges", numbers s.edges),
    ("bin_content", numbers s.contents.toList),
    ("sumw2", numbers s.squares.toList),
    ("underflow", .number s.underflow),
    ("overflow", .number s.overflow),
    ("underflow_sumw2", .number s.underflowSquares),
    ("overflow_sumw2", .number s.overflowSquares),
    ("entries", .natural s.entries.toNat)]

/-- A selection axis as a JSON value. -/
def BinnedColumn.toJson (c : BinnedColumn) : Json :=
  .object [
    ("variable", .text c.column),
    ("bins", .natural c.bins.toNat),
    ("lo", .number c.lo),
    ("hi", .number c.hi)]

/-- An axis as a JSON value. -/
def Axis.toJson (a : Axis) : Json :=
  .object [("bins", .natural a.bins.toNat), ("lo", .number a.lo), ("hi", .number a.hi)]

/-- A request for a histogram as a JSON value. -/
def Observable.toJson (o : Observable) : Json :=
  .object [
    ("name", .text o.name),
    ("variable", .text o.column),
    ("label", .text o.label),
    ("weight", .text o.weight),
    ("bins", .natural o.bins.toNat),
    ("lo", .number o.lo),
    ("hi", .number o.hi)]

namespace HistogramTree

/-- A field, left out if the object would be empty. -/
def fieldUnlessEmpty (key : String) (fields : List (String × Json)) : List (String × Json) :=
  if fields.isEmpty then [] else [(key, .object fields)]

mutual

/-- A tree as a JSON value. -/
def toJson : HistogramTree Float → Json
  | .node dirs histograms =>
    .object (fieldUnlessEmpty "dirs" (dirsToJson dirs) ++
      fieldUnlessEmpty "histograms" (histograms.map fun (name, h) => (name, h.toJson)))

/-- The fields for the directories of a tree. -/
def dirsToJson : List (String × HistogramTree Float) → List (String × Json)
  | [] => []
  | (name, t) :: rest => (name, toJson t) :: dirsToJson rest

end

mutual

/-- What puts a tree onto a disk, with its root at a path: the directory, its files, and then what
the directories below need. -/
def writes (path : DiskPath) : HistogramTree Float → List DiskWrite
  | .node dirs histograms =>
    .directory path ::
      (histograms.map fun (name, h) => .file (path.child (name ++ ".json")) h.toJson.pretty) ++
      writesBelow path dirs

/-- What puts the directories of a tree onto a disk. -/
def writesBelow (path : DiskPath) : List (String × HistogramTree Float) → List DiskWrite
  | [] => []
  | (name, t) :: rest => writes (path.child name) t ++ writesBelow path rest

end

end HistogramTree

end VariHist
