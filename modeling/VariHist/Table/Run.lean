import VariHist.Step
import VariHist.Table.Aggregation
import VariHist.Table.Basic
import VariHist.Table.RowRange

/-!
# The event loop

One pass over the rows serves every pending aggregation.  Each slot works through its own range of
rows with its own buffers, and fills its own slot of every aggregation; what one slot does is of no
concern to another, so the slots may work in any order or side by side.  The machine may refuse to
start a worker for each slot, and an aggregation may make another number of slots than it was asked
for; then no slot is worked through.
-/

namespace VariHist

open Aggregation

variable {α : Type} [Aggregation α]

namespace Subscription

/-- Prepares aggregations one after another, up to the first that makes another number of slots
than it is asked for. -/
def prepareAll (slots : Nat) : List (Subscription α) → List (Subscription α) × Option Error
  | [] => ([], none)
  | s :: rest =>
    let action := prepare slots s.action
    if slotCount action = slots then
      let (rest, fault) := prepareAll slots rest
      ({ s with action } :: rest, fault)
    else
      ({ s with action } :: rest,
        some (.computation (.slotCount (name action) (slotCount action) slots)))

/-- Opens a slot of every aggregation. -/
def openAll (slot : Nat) (subscriptions : List (Subscription α)) : List (Subscription α) :=
  subscriptions.map fun s => { s with action := openSlot slot s.action }

/-- Fills a slot of every aggregation with its column's value on the row at hand. -/
def fillAll (slot : Nat) (buffers : RowBuffers) (subscriptions : List (Subscription α)) :
    List (Subscription α) :=
  subscriptions.map fun s => { s with action := fill slot (buffers.vector s.column) s.action }

/-- The work of one slot. -/
def runSlot (columns : Array Column) (schedule : Schedule) (slot : Nat) (range : RowRange)
    (subscriptions : List (Subscription α)) : List (Subscription α) :=
  (range.rows.foldl (fun (subscriptions, buffers) row =>
      let (buffers, kept) := RowBuffers.evalRow columns schedule buffers row
      (if kept then fillAll slot buffers subscriptions else subscriptions, buffers))
    (openAll slot subscriptions, RowBuffers.empty columns.size)).1

/-- Puts the slots of every aggregation together. -/
def finishAll (subscriptions : List (Subscription α)) : List (Subscription α) :=
  subscriptions.map fun s => { s with action := finish s.action }

end Subscription

namespace EventTable

open Subscription

/-- The subscriptions after all slots have worked through their rows. -/
def process [Machine] (t : EventTable α) (subscriptions : List (Subscription α)) :
    List (Subscription α) :=
  let schedule := Schedule.make t.columns t.filters (subscriptions.map Subscription.column)
  (RowRange.split t.rows t.slotCount).zipIdx.foldl
    (fun subscriptions (range, slot) => runSlot t.columns schedule slot range subscriptions)
    subscriptions

/-- Runs the event loop for all pending aggregations, if there are any.  The workers are started
before anything is asked of an aggregation.  After a fault all are still pending, and none of them
is finished. -/
def run [Machine] : Step (EventTable α) Unit := fun t =>
  if t.pending.isEmpty then .ok () t
  else
    match Machine.poolFault? t.slotCount with
    | some reason => .error (.computation (.noPool reason)) t
    | none =>
      match prepareAll t.slotCount t.pending with
      | (prepared, some fault) => .error fault { t with pending := prepared }
      | (prepared, none) =>
        .ok ()
          { t with
            finished := t.finished ++ finishAll (t.process prepared)
            pending := []
            runs := t.runs + 1 }

end EventTable

end VariHist
