import VariHist.Analysis.Description
import VariHist.Booking.Book
import VariHist.Booking.Projection
import VariHist.Systematics.VariedTable

/-!
# Running an analysis

The systematics are looked up among the columns, the definitions and selections are made together
with their shifted copies, the catalog of variations is built, the histograms are booked, and one
event loop fills them all.  What comes out is a tree of spectra and a report.
-/

namespace VariHist

/-- What is reported of one histogram. -/
structure HistogramReport where
  name : String
  /-- The number of points that each row fills. -/
  points : Nat
  /-- The number of fills. -/
  entries : UInt64

/-- What is reported of a run. -/
structure RunReport where
  rows : Nat
  threads : Nat
  variations : List String
  histograms : List HistogramReport
  /-- The number of spectra. -/
  outputs : Nat

namespace Analysis

variable {α β ν : Type}

/-- The registry that an analysis starts from: the systematics that are found among the columns,
and then those that are declared. -/
def registry (a : Analysis) (t : EventTable α) : Registry :=
  a.affects.foldl (fun r (systematic, columns) => r.register systematic columns)
    (Registry.empty.registerExisting a.systematics t.columnNames)

/-- Makes one definition. -/
def define (d : DefineEntry) : Step (VariedTable α) Unit :=
  match d.formula, d.value with
  | some formula, _ => do let _ ← VariedTable.defineFormula d.name formula
  | none, some value => VariedTable.defineConstant d.name value
  | none, none => throw (.config (.defineNeither d.name))

/-- Makes all definitions and selections, and builds the catalog of variations. -/
def propagate (a : Analysis) : Step (VariedTable α) (List String) := do
  a.defines.forM define
  a.filters.forM fun f => do let _ ← VariedTable.filterFormula f.name f.formula
  VariedTable.buildCatalog a.variationIndex

/-- A step on a table with a registry; the registry goes with the answer. -/
def withRegistry (registry : Registry) (step : Step (VariedTable α) β) :
    Step (EventTable α) (β × Registry) := fun t =>
  match step ⟨t, registry⟩ with
  | .ok b v => .ok (b, v.registry) v.table
  | .error e v => .error e v.table

/-- The histograms to book once the catalog is known. -/
def request (a : Analysis) (catalog : List String) : Except ConfigFault BookingRequest := do
  let regions ← a.selection
  let variations ← BinnedColumn.ofLabels a.variationIndex catalog
  return {
    selection := regions ++ [variations]
    catalogs := a.catalogs ++ [catalog]
    observables := ← a.observables
    suffix := a.suffix }

variable [FillNumber ν] [Aggregation α] [HoldsHistograms α ν]

/-- What is reported of a booking. -/
def reportOf (t : EventTable α) (b : Booking) : HistogramReport :=
  ⟨b.name, b.points, (b.result? t).elim 0 SparseHistogram.entries⟩

/-- Runs an analysis. -/
def run [Machine] (a : Analysis) : Step (EventTable α) (HistogramTree ν × RunReport) := do
  let t ← get
  let (catalog, registry) ← withRegistry (a.registry t) a.propagate
  let request ← Step.ask fun _ => (a.request catalog).mapError .config
  let bookings ← EventTable.book registry request
  let tree ← EventTable.project bookings
  let t ← get
  return (tree, {
    rows := t.rows
    threads := t.slotCount
    variations := catalog
    histograms := bookings.map (reportOf t)
    outputs := tree.count })

end Analysis

end VariHist
