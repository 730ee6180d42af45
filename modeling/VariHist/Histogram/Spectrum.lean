import VariHist.Histogram.FillNumber

/-!
# Spectra

A histogram of one variable, as it is handed out: its edges, the sums of its bins, and the sums of
what lies below and above.
-/

namespace VariHist

open FillNumber

variable {ν : Type} [FillNumber ν]

/-- A histogram of one variable. -/
structure Spectrum (ν : Type) where
  name : String
  title : String
  /-- The number of bins within the range. -/
  bins : UInt64
  lo : Float
  hi : Float
  /-- One edge more than bins. -/
  edges : List ν
  /-- The sum of weights of each bin. -/
  contents : Array ν
  /-- The sum of squared weights of each bin. -/
  squares : Array ν
  underflow : ν
  overflow : ν
  underflowSquares : ν
  overflowSquares : ν
  /-- The number of fills, those out of range included. -/
  entries : UInt64

namespace Spectrum

/-- The edges of `bins` equal bins over `[lo, hi)`.  The last edge is `hi` itself. -/
def edgesOf (bins : UInt64) (lo hi : Float) : List ν :=
  let low : ν := ofFloat lo
  let width := div (sub (ofFloat hi) low) (ofWord bins)
  (List.range bins.toNat).map (fun i => FillNumber.add low (mul (ofWord i.toUInt64) width)) ++
    [ofFloat hi]

/-- A spectrum without fills. -/
def make (name title : String) (bins : UInt64) (lo hi : Float) : Spectrum ν where
  name
  title
  bins
  lo
  hi
  edges := edgesOf bins lo hi
  contents := Array.replicate bins.toNat zero
  squares := Array.replicate bins.toNat zero
  underflow := zero
  overflow := zero
  underflowSquares := zero
  overflowSquares := zero
  entries := 0

/-- Adds to a bin: `0` lies below the range, `1` to `bins` within, and all others above. -/
def addToBin (s : Spectrum ν) (bin : UInt64) (weight weightSquared : ν) (entries : UInt64) :
    Spectrum ν :=
  let s := { s with entries := s.entries + entries }
  if bin = 0 then
    { s with
      underflow := FillNumber.add s.underflow weight
      underflowSquares := FillNumber.add s.underflowSquares weightSquared }
  else if s.bins < bin then
    { s with
      overflow := FillNumber.add s.overflow weight
      overflowSquares := FillNumber.add s.overflowSquares weightSquared }
  else
    let i := (bin - 1).toNat
    { s with
      contents := s.contents.modify i fun c => FillNumber.add c weight
      squares := s.squares.modify i fun c => FillNumber.add c weightSquared }

end Spectrum

end VariHist
