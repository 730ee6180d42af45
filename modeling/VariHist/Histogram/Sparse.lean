import Std.Data.TreeMap
import VariHist.Histogram.Axis

/-!
# Sparse histograms

A histogram over any number of axes that stores only the bins that were filled.  A bin has one
coordinate per axis, and is stored under its linear index, in which the coordinate of the first
axis counts fastest.  Indices are words; a histogram whose bins cannot all be told apart by a word
is refused.
-/

namespace VariHist

open FillNumber

variable {ν : Type} [FillNumber ν]

/-- What a bin holds. -/
structure BinContent (ν : Type) where
  /-- The sum of weights. -/
  weight : ν
  /-- The sum of squared weights. -/
  weightSquared : ν
  /-- The number of fills. -/
  entries : UInt64

namespace BinContent

/-- The content of a bin that was never filled. -/
def zero : BinContent ν :=
  ⟨FillNumber.zero, FillNumber.zero, 0⟩

/-- The content of a bin that was filled once. -/
def ofWeight (w : ν) : BinContent ν :=
  ⟨w, mul w w, 1⟩

/-- Both contents together. -/
def add (a b : BinContent ν) : BinContent ν :=
  ⟨FillNumber.add a.weight b.weight, FillNumber.add a.weightSquared b.weightSquared,
    a.entries + b.entries⟩

end BinContent

/-- The linear index of coordinates: `c₀ + n₀ · (c₁ + n₁ · (c₂ + …))` for axes of sizes `n₀, n₁, …`.
Coordinates that are left out count as zero. -/
def linearIndex : List Axis → List UInt64 → UInt64
  | a :: axes, c :: coords => c + a.size * linearIndex axes coords
  | _, _ => 0

/-- The coordinates of a linear index. -/
def coordinates : List Axis → UInt64 → List UInt64
  | [], _ => []
  | a :: axes, index => index % a.size :: coordinates axes (index / a.size)

/-- The stored bins of a histogram, by linear index. -/
abbrev Bins (ν : Type) : Type :=
  Std.TreeMap UInt64 (BinContent ν)

/-- Adds content to a bin. -/
def Bins.addAt (bins : Bins ν) (index : UInt64) (content : BinContent ν) : Bins ν :=
  bins.alter index fun old => some ((old.getD .zero).add content)

/-- A histogram over several axes. -/
structure SparseHistogram (ν : Type) where
  name : String
  axes : List Axis
  bins : Bins ν
  /-- The number of fills. -/
  entries : UInt64

namespace SparseHistogram

/-- Every axis has to have bins, and the number of all bins has to fit a word.  `soFar` is the
number of bins over the axes before. -/
def checkAxes (name : String) (soFar : UInt64) : List Axis → Except ConfigFault Unit
  | [] => .ok ()
  | a :: axes =>
    if a.bins = 0 then .error (.axisWithoutBins name)
    else if soFar.toNat * a.size.toNat < 0x10000000000000000 then
      checkAxes name (soFar * a.size) axes
    else .error (.tooManyBins name)

/-- A histogram without fills. -/
def make (name : String) (axes : List Axis) : Except ConfigFault (SparseHistogram ν) := do
  if axes.isEmpty then throw (.withoutAxes name)
  checkAxes name 1 axes
  return ⟨name, axes, ∅, 0⟩

/-- The number of axes. -/
def dim (h : SparseHistogram ν) : Nat :=
  h.axes.length

/-- The coordinates of a point, given by one value per axis. -/
def locate (h : SparseHistogram ν) (point : List ν) : List UInt64 :=
  (h.axes.zip point).map fun (a, x) => a.findBin x

/-- Adds a weight at a point. -/
def fill (h : SparseHistogram ν) (point : List ν) (w : ν) : SparseHistogram ν :=
  { h with
    bins := Bins.addAt h.bins (linearIndex h.axes (h.locate point)) (.ofWeight w)
    entries := h.entries + 1 }

/-- The content of the bin at some coordinates. -/
def bin (h : SparseHistogram ν) (coords : List UInt64) : BinContent ν :=
  (h.bins[linearIndex h.axes coords]?).getD .zero

/-- The stored bins in order of linear index. -/
def sorted (h : SparseHistogram ν) : List (UInt64 × BinContent ν) :=
  h.bins.toList

/-- Adds the contents of a histogram over the same axes. -/
def absorb (h other : SparseHistogram ν) : SparseHistogram ν :=
  { h with
    bins := other.bins.foldl (fun bins index content => Bins.addAt bins index content) h.bins
    entries := h.entries + other.entries }

/-- Adds the contents of a histogram, if it has the same axes. -/
def add (h other : SparseHistogram ν) : Except ComputationFault (SparseHistogram ν) :=
  if h.axes == other.axes then .ok (h.absorb other)
  else .error (.axesDiffer other.name h.name)

/-- The sum of weights over all bins.  The sum starts at negative zero, which adds nothing to any
weight. -/
def sumOfWeights (h : SparseHistogram Float) : Float :=
  h.bins.foldl (fun sum _ content => sum + content.weight) (-0.0)

end SparseHistogram

end VariHist
