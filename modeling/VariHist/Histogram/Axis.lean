import VariHist.Binning
import VariHist.Histogram.FillNumber

/-!
# Axes

An axis has a number of equal bins over `[lo, hi)`, and two more for the values that lie outside:
bin `0` below the range, and the bin after the last one at or above its end.
-/

namespace VariHist

/-- Equal bins over `[lo, hi)`. -/
structure Axis where
  bins : UInt64
  lo : Float
  hi : Float
  deriving BEq

namespace Axis

/-- The axis of a binned column. -/
def ofColumn (c : BinnedColumn) : Axis :=
  ⟨c.bins, c.lo, c.hi⟩

/-- The number of bins with the two outer ones, counted in words. -/
def size (a : Axis) : UInt64 :=
  a.bins + 2

open FillNumber in
/-- The bin of a value.  NaN counts as lying above the range.  A quotient that is rounded up to the
end of the range stays in the last bin. -/
def findBin {ν : Type} [FillNumber ν] (a : Axis) (x : ν) : UInt64 :=
  let lo : ν := ofFloat a.lo
  let hi : ν := ofFloat a.hi
  if lt x lo then 0
  else if lt x hi then
    let place := truncate (div (mul (sub x lo) (ofWord a.bins)) (sub hi lo))
    let last := a.bins - 1
    (if last < place then last else place) + 1
  else a.bins + 1

end Axis

end VariHist
