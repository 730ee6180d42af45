import VariHist.Fault
import VariHist.Text.Blank

/-!
# Binned quantities

A `BinnedColumn` cuts the values of a column into equal bins; it is a selection axis of a
histogram.  An `Observable` asks for a histogram: which column to bin, with which weight.  Both are
checked when they are made, by `BinnedColumn.make` and `Observable.make`.
-/

namespace VariHist

/-- A column whose values fall into `bins` equal bins over `[lo, hi)`. -/
structure BinnedColumn where
  column : String
  bins : UInt64
  lo : Float
  hi : Float

/-- What has to hold of a binning: the variable has a name, there are bins, and the range is
finite and not empty. -/
def checkBinning (owner : BinningOwner) (column : String) (bins : UInt64) (lo hi : Float) :
    Except ConfigFault Unit :=
  if Text.isBlankText column then .error (.unnamedVariable owner)
  else if bins = 0 then .error (.noBins owner column)
  else if !(lo.isFinite && hi.isFinite) || hi ≤ lo then .error (.badRange owner column lo hi)
  else .ok ()

namespace BinnedColumn

/-- A selection axis. -/
def make (column : String) (bins : UInt64) (lo hi : Float) : Except ConfigFault BinnedColumn := do
  checkBinning .selectionAxis column bins lo hi
  return ⟨column, bins, lo, hi⟩

/-- The axis of an index column: one bin per label, each centred on the label's position. -/
def ofLabels (column : String) (labels : List String) : Except ConfigFault BinnedColumn :=
  let n := labels.length.toUInt64
  make column n (-0.5) (n.toFloat - 0.5)

end BinnedColumn

/-- A histogram that is asked for: the column to bin, the column of weights and a title. -/
structure Observable where
  name : String
  column : String
  label : String
  weight : String
  bins : UInt64
  lo : Float
  hi : Float

namespace Observable

/-- A request, once its names and its binning have passed. -/
def make (name column label weight : String) (bins : UInt64) (lo hi : Float) :
    Except ConfigFault Observable := do
  if Text.isBlankText name then throw .unnamedHistogram
  if Text.isBlankText weight then throw (.unnamedWeight name)
  checkBinning (.valueAxis name) column bins lo hi
  return ⟨name, column, label, weight, bins, lo, hi⟩

/-- The axis along which the values are binned. -/
def valueAxis (o : Observable) : BinnedColumn :=
  ⟨o.column, o.bins, o.lo, o.hi⟩

end Observable

end VariHist
