import VariHist.Decimal.Shortest
import VariHist.Histogram.FillNumber

/-!
# Histograms in exact fractions

A finite double is a fraction `± m · 2 ^ e`.  Read with fractions, the search for a bin and the sums
of a histogram are free of rounding, and say what the histogram of doubles stands for.
-/

namespace VariHist.Exact

/-- The fraction that a finite double is; of no meaning for infinities and NaN. -/
def ofFloat (x : Float) : Rat :=
  let b := Decimal.Binary.ofFloat x
  let size := b.mantissa * Nat.pow 2 b.exponent.toNat
  let signed := if x.toBits ≥ 0x8000000000000000 then Int.negOfNat size else Int.ofNat size
  mkRat signed (Nat.pow 2 (-b.exponent).toNat)

/-- An integer cut to the range of a word. -/
def clampWord (n : Int) : UInt64 :=
  (Nat.min n.toNat 0xFFFFFFFFFFFFFFFF).toUInt64

end VariHist.Exact

namespace VariHist

/-- The arithmetic of fractions.  A quotient by zero is zero. -/
instance : FillNumber Rat where
  ofFloat := Exact.ofFloat
  ofWord n := mkRat (Int.ofNat n.toNat) 1
  add := Rat.add
  sub := Rat.sub
  mul := Rat.mul
  div := Rat.div
  lt := Rat.blt
  isZero x := x.num == 0
  truncate x := Exact.clampWord (Rat.floor x)

end VariHist
