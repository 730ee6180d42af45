import VariHist.Booking.Basic
import VariHist.Histogram.Spectrum
import VariHist.Output.Tree

/-!
# Projections

A filled histogram is cut into spectra: one for each region and variation that holds anything.  The
labels of the selection bins name the directory, and the label of the variation bin names the
spectrum in it.  Bins that lie outside of a selection axis belong to no region and are left out, as
are bins whose weights cancel.
-/

namespace VariHist

variable {α ν : Type} [FillNumber ν]

/-- Spectra by the place where they are put. -/
abbrev Spectra (ν : Type) : Type :=
  Std.TreeMap OutputKey (Spectrum ν)

namespace Booking

/-- The label of a selection bin, if the bin lies within the range. -/
def labelOf? (labels : List String) (bin : UInt64) : Option String :=
  if bin = 0 then none else labels[(bin - 1).toNat]?

/-- Where the content of a bin belongs, if its selection coordinates have labels. -/
def keyOf? (b : Booking) (coords : List UInt64) : Option OutputKey :=
  let k := b.selection.length
  let labels := (coords.take k).zip b.catalogs |>.map fun (bin, labels) => labelOf? labels bin
  (labels.mapM id).bind fun labels =>
    if labels.length < k then none
    else
      let variation := labels.getLast?.getD nominalLabel
      some ⟨labels.dropLast, leafName b.observable.column variation⟩

/-- A spectrum without fills for a leaf. -/
def emptySpectrum (b : Booking) (leaf : String) : Spectrum ν :=
  let o := b.observable
  .make leaf o.label o.bins o.lo o.hi

/-- Adds the content of a bin to the spectrum that it belongs to. -/
def addBin (b : Booking) (spectra : Spectra ν) (coords : List UInt64) (content : BinContent ν) :
    Spectra ν :=
  if FillNumber.isZero content.weight then spectra
  else match b.keyOf? coords with
    | none => spectra
    | some key =>
      spectra.alter key fun old =>
        some ((old.getD (b.emptySpectrum key.leaf)).addToBin
          (coords.getD b.selection.length 0) content.weight content.weightSquared content.entries)

/-- The spectra of a filled histogram. -/
def spectraOf (b : Booking) (h : SparseHistogram ν) : Spectra ν :=
  h.sorted.foldl
    (fun spectra (index, content) => b.addBin spectra (coordinates h.axes index) content) ∅

/-- The spectra of a booked histogram, which has to be filled. -/
def spectra [HoldsHistograms α ν] (b : Booking) (t : EventTable α) : Except Error (Spectra ν) :=
  match b.result? t with
  | some h => .ok (b.spectraOf h)
  | none => .error (.computation (.notFilled b.name))

/-- Puts spectra into a tree, in order of their keys. -/
def insertSpectra (spectra : Spectra ν) : Step (HistogramTree ν) Unit :=
  spectra.toList.forM fun (key, s) => HistogramTree.insert key.path s

end Booking

/-- Runs the event loop, if anything is pending, and puts the spectra of the bookings into a tree.
Places that are taken or shared are looked for first. -/
def EventTable.projectInto [Aggregation α] [HoldsHistograms α ν] [Machine]
    (bookings : List Booking) : Step (EventTable α × HistogramTree ν) Unit := do
  Step.ask fun (_, tree) =>
    (checkOutputKeys (fun key => tree.isTaken key.path key.leaf) bookings).mapError .config
  Step.within Prod.fst (fun t s => (t, s.2)) EventTable.run
  bookings.forM fun b => do
    let spectra ← Step.ask fun (t, _) => b.spectra t
    Step.within Prod.snd (fun tree s => (s.1, tree)) (Booking.insertSpectra spectra)

/-- The spectra of the bookings in a tree of their own. -/
def EventTable.project [Aggregation α] [HoldsHistograms α ν] [Machine]
    (bookings : List Booking) : Step (EventTable α) (HistogramTree ν) := fun t =>
  match EventTable.projectInto bookings (t, .empty) with
  | .ok () (t, tree) => .ok tree t
  | .error e (t, _) => .error e t

end VariHist
