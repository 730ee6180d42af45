import Std.Data.TreeMap
import VariHist.Histogram.Slotted
import VariHist.Systematics.Registry
import VariHist.Table.Run

/-!
# Booked histograms

A booking is a histogram that has been asked for and is filled by the event loop.  Its axes are the
selection axes, of which the last one tells the variations apart, and the axis of the observable.
Each row fills one point per slice: the nominal slice reads the columns themselves, and a variation
whose systematic affects more than one of the columns reads their shifted copies.
-/

namespace VariHist

/-- The columns read for one variation: one per axis, and the weight at the end. -/
structure Slice where
  label : String
  columns : List String
  deriving DecidableEq, Repr

/-- Where a spectrum is put: the directories from the root, and the name within the last one. -/
structure OutputKey where
  path : List String
  leaf : String
  deriving DecidableEq, Repr

/-- Keys are ordered by their path, and by their leaf within a directory. -/
instance : Ord OutputKey where
  compare := compareLex (compareOn OutputKey.path) (compareOn OutputKey.leaf)

/-- A histogram that the event loop fills. -/
structure Booking where
  name : String
  observable : Observable
  /-- The selection axes; the last one tells the variations apart. -/
  selection : List BinnedColumn
  /-- The labels of the bins of each selection axis. -/
  catalogs : List (List String)
  /-- What each row fills, the nominal slice first. -/
  slices : List Slice
  /-- The ticket of the aggregation that fills it. -/
  ticket : Nat

/-- The slices of a histogram over some columns: nominal, and every variation of the catalog whose
systematic affects more than one of the columns.  A variation of one column alone needs no slice of
its own: it changes the weight or one coordinate only, or is the index column itself. -/
def fillSlices (registry : Registry) (columns catalog : List String) : List Slice :=
  ⟨nominalLabel, columns⟩ :: catalog.filterMap fun label =>
    (splitLabel? label).bind fun (systematic, _) =>
      let affected := columns.filter (registry.affects systematic)
      if affected.length ≤ 1 then none
      else some ⟨label, columns.map fun c =>
        if registry.affects systematic c then labelledColumn c label else c⟩

/-- The name of a spectrum of a column under a label. -/
def leafName (column label : String) : String :=
  if label = nominalLabel then column else labelledColumn column label

/-- All ways to pick one label from each catalog, the last pick varying fastest. -/
def regionPaths (catalogs : List (List String)) : List (List String) :=
  catalogs.foldl (fun paths labels => paths.flatMap fun p => labels.map fun l => p ++ [l]) [[]]

namespace Booking

/-- The number of points that each row fills. -/
def points (b : Booking) : Nat :=
  b.slices.length

/-- The axes of the histogram. -/
def axes (b : Booking) : List Axis :=
  b.selection.map Axis.ofColumn ++ [Axis.ofColumn b.observable.valueAxis]

/-- The labels along the axis of variations. -/
def variations (b : Booking) : List String :=
  b.catalogs.getLast?.getD []

/-- Where spectra of this histogram may be put: every combination of region labels with the leaf of
every slice. -/
def outputKeys (b : Booking) : List OutputKey :=
  let leaves := b.slices.map fun s => leafName b.observable.column s.label
  (regionPaths b.catalogs.dropLast).flatMap fun path => leaves.map fun leaf => ⟨path, leaf⟩

/-- The histogram, once the event loop has filled it. -/
def result? {α ν : Type} [HoldsHistograms α ν] (b : Booking) (t : EventTable α) :
    Option (SparseHistogram ν) :=
  (t.aggregation? b.ticket).bind fun a =>
    (HoldsHistograms.histogram? a).bind SlottedHistogram.result

end Booking

/-- Claims a place for a spectrum of a histogram.  The place must not be taken, and no spectrum
before may have claimed it. -/
def claimKey (taken : OutputKey → Bool) (claimed : Std.TreeMap OutputKey String) (name : String)
    (key : OutputKey) : Except ConfigFault (Std.TreeMap OutputKey String) :=
  if taken key then .error (.outputTaken name key.leaf key.path)
  else match claimed[key]? with
    | some other => .error (.outputShared other name (key.path ++ [key.leaf]))
    | none => .ok (claimed.insert key name)

/-- Checks that no two spectra of the bookings, and no spectrum and what is there already, would
share a place. -/
def checkOutputKeys (taken : OutputKey → Bool) (bookings : List Booking) :
    Except ConfigFault Unit := do
  let claims := bookings.flatMap fun b => b.outputKeys.map fun key => (b.name, key)
  let _ ← claims.foldlM (fun claimed (name, key) => claimKey taken claimed name key) ∅
  return ()

end VariHist
