/-!
# Numbers that histograms are filled with

Coordinates are located and weights are summed in some arithmetic.  Programs use doubles; statements
about what a histogram means use exact fractions (`VariHist.Histogram.Exact`).  Both start from the
doubles of a table, so the arithmetic says how a double is read.
-/

namespace VariHist

/-- An arithmetic for coordinates and weights. -/
class FillNumber (ν : Type) where
  /-- The number that a double stands for. -/
  ofFloat : Float → ν
  /-- The number of a count. -/
  ofWord : UInt64 → ν
  add : ν → ν → ν
  sub : ν → ν → ν
  mul : ν → ν → ν
  div : ν → ν → ν
  lt : ν → ν → Bool
  isZero : ν → Bool
  /-- The whole part of a number, cut to the range of a word. -/
  truncate : ν → UInt64

/-- The number zero. -/
def FillNumber.zero {ν : Type} [FillNumber ν] : ν :=
  ofFloat 0

/-- The arithmetic of doubles. -/
instance : FillNumber Float where
  ofFloat := id
  ofWord := UInt64.toFloat
  add := Float.add
  sub := Float.sub
  mul := Float.mul
  div := Float.div
  lt a b := a < b
  isZero a := a == 0
  truncate := Float.toUInt64

end VariHist
