import VariHist.Booking.Basic

/-!
# Booking histograms

Histograms are booked several at a time, one per observable, over the same selection axes.  The
request is checked as a whole first.  Then each histogram in turn gets a vector column that lines up
the columns of its slices, and an aggregation that collects it.
-/

namespace VariHist

/-- What is asked for: histograms of some observables over selection axes with labelled bins, the
last axis for the variations.  `suffix` is appended to the names of the histograms. -/
structure BookingRequest where
  observables : List Observable
  selection : List BinnedColumn
  suffix : String
  catalogs : List (List String)

namespace BookingRequest

/-- The columns of a histogram: one per selection axis, the observable's own, and the weight. -/
def columnsOf (r : BookingRequest) (o : Observable) : List String :=
  r.selection.map BinnedColumn.column ++ [o.column, o.weight]

/-- The labels along the axis of variations. -/
def variations (r : BookingRequest) : List String :=
  r.catalogs.getLast?.getD []

/-- Is the label nominal or one of a systematic? -/
def isWellFormedLabel (label : String) : Bool :=
  label = nominalLabel || (splitLabel? label).isSome

/-- The shape of a request: as many catalogs as axes, as many labels as bins, and variations that
can be told. -/
def checkShape (r : BookingRequest) : Except ConfigFault Unit := do
  if r.catalogs.isEmpty then throw .noCatalogs
  if r.selection.isEmpty then throw .noSelectionAxes
  if r.catalogs.length ≠ r.selection.length then
    throw (.catalogCount r.catalogs.length r.selection.length)
  (r.selection.zip r.catalogs).forM fun (axis, labels) =>
    if labels.length = axis.bins.toNat then pure ()
    else throw (.catalogSize axis.column axis.bins labels.length)
  match r.variations.find? fun label => !isWellFormedLabel label with
  | some label => throw (.malformedLabel label)
  | none => pure ()

variable {α ν : Type} [FillNumber ν] [HoldsHistograms α ν]

/-- Columns have to exist. -/
def checkColumns (t : EventTable α) (columns : List String) : Except Error Unit :=
  match columns.find? fun c => !t.hasColumn c with
  | some missing => .error (.missingColumn missing)
  | none => .ok ()

/-- What is checked before anything else is looked at. -/
def check (r : BookingRequest) (t : EventTable α) : Except Error Unit := do
  r.checkShape.mapError .config
  r.observables.forM fun o => checkColumns t (r.columnsOf o)

/-- A histogram that is about to be booked: the column that is to be made for it, its aggregation,
and the booking but for the ticket. -/
structure Plan (ν : Type) where
  fillColumn : String
  histogram : SlottedHistogram ν
  booking : Booking

/-- Plans the histogram of one observable.  `planned` are the fill columns of the ones before. -/
def planOne [Machine] (r : BookingRequest) (t : EventTable α) (registry : Registry)
    (planned : List String) (o : Observable) : Except Error (Plan ν) := do
  let name := o.name ++ "." ++ r.suffix
  let fillColumn := name ++ ".fill"
  if t.hasColumn fillColumn || planned.contains fillColumn then
    throw (.duplicateColumn fillColumn)
  let slices := fillSlices registry (r.columnsOf o) r.variations
  checkColumns t (slices.flatMap Slice.columns)
  let booking : Booking := ⟨name, o, r.selection, r.catalogs, slices, 0⟩
  let histogram ←
    (SlottedHistogram.make name booking.axes slices.length t.slotCount).mapError .config
  return { fillColumn, histogram, booking }

/-- Plans all histograms of a request. -/
def plan [Machine] (r : BookingRequest) (t : EventTable α) (registry : Registry) :
    Except Error (List (Plan ν)) := do
  r.check t
  let plans ← r.observables.foldlM (fun (plans : List (Plan ν)) o => do
      return plans ++ [← r.planOne t registry (plans.map Plan.fillColumn) o]) []
  (checkOutputKeys (fun _ => false) (plans.map Plan.booking)).mapError .config
  return plans

/-- Books a planned histogram. -/
def Plan.book (p : Plan ν) : Step (EventTable α) Booking := do
  Step.attempt fun t =>
    t.defineColumn p.fillColumn .concat (p.booking.slices.flatMap Slice.columns)
  let ticket ← Step.ask fun t => .ok t.nextTicket
  Step.attempt fun t => t.subscribe p.fillColumn (HoldsHistograms.ofHistogram p.histogram)
  return { p.booking with ticket }

end BookingRequest

/-- Books one histogram per observable. -/
def EventTable.book {α ν : Type} [FillNumber ν] [HoldsHistograms α ν] [Machine]
    (registry : Registry) (r : BookingRequest) : Step (EventTable α) (List Booking) := do
  let plans : List (BookingRequest.Plan ν) ← Step.ask fun t => r.plan t registry
  plans.mapM BookingRequest.Plan.book

end VariHist
