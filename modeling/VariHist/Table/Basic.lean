import VariHist.Fault
import VariHist.Formula.Compile
import VariHist.Table.Machine
import VariHist.Table.Row

/-!
# Event tables

A table has a fixed number of rows, one per event, and columns that are added by name.  Columns are
never changed or removed.  Filters keep the rows on which a scalar column is greater than zero.
Aggregations wait for the next event loop.  Every function here makes its change as a whole or
returns a fault; the event loop itself is in `VariHist.Table.Run`.
-/

namespace VariHist

/-- An aggregation and the position of the vector column that it collects. -/
structure Subscription (α : Type) where
  column : Nat
  action : α

/-- A table of events with aggregations of type `α`. -/
structure EventTable (α : Type) where
  /-- The number of rows, before filtering. -/
  rows : Nat
  /-- The number of slots asked for; zero leaves the choice open. -/
  threads : Nat
  /-- The columns in the order in which they were added. -/
  columns : Array Column
  /-- The positions of the filters in the order in which they were set. -/
  filters : List Nat
  /-- The aggregations whose event loop is over, oldest first. -/
  finished : List (Subscription α)
  /-- The aggregations that wait for the next event loop, oldest first. -/
  pending : List (Subscription α)
  /-- The number of completed event loops. -/
  runs : Nat

namespace EventTable

variable {α : Type}

/-- A table without columns. -/
def ofRows (rows : Nat) : EventTable α :=
  ⟨rows, 0, #[], [], [], [], 0⟩

/-- Sets the number of slots. -/
def withThreads (t : EventTable α) (threads : Nat) : EventTable α :=
  { t with threads }

/-- The number of slots of the next event loop: the number asked for, or as many as the machine has
threads at hand, but at least one. -/
def slotCount [Machine] (t : EventTable α) : Nat :=
  if t.threads = 0 then max Machine.threads 1 else t.threads

/-- The names of the columns in order. -/
def columnNames (t : EventTable α) : List String :=
  t.columns.toList.map Column.name

/-- The position of a column. -/
def idOf? (t : EventTable α) (name : String) : Option Nat :=
  t.columns.findIdx? fun c => c.name = name

/-- The column of a name. -/
def column? (t : EventTable α) (name : String) : Option Column :=
  t.columns.find? fun c => c.name = name

/-- Is there a column of this name? -/
def hasColumn (t : EventTable α) (name : String) : Bool :=
  (t.column? name).isSome

/-- The kind of a column. -/
def kindOf? (t : EventTable α) (name : String) : Option ColumnKind :=
  (t.column? name).map Column.kind

/-- The position of a column that has to be of a kind. -/
def idOfKind (t : EventTable α) (kind : ColumnKind) (name : String) : Except Error Nat :=
  match t.idOf? name, t.kindOf? name with
  | some id, some actual =>
    if actual = kind then .ok id else .error (.columnKind name kind actual)
  | _, _ => .error (.missingColumn name)

/-- Adds a column at the end, if its name is free. -/
def insert (t : EventTable α) (name : String) (source : Source) : Except Error (EventTable α) :=
  if t.hasColumn name then .error (.duplicateColumn name)
  else .ok { t with columns := t.columns.push ⟨name, source⟩ }

/-- Adds a column of stored values, one per row. -/
def addColumn (t : EventTable α) (name : String) (values : Array Float) :
    Except Error (EventTable α) :=
  if values.size = t.rows then t.insert name (.stored values)
  else .error (.config (.columnLength name values.size t.rows))

/-- A table with the given columns; the first one fixes the number of rows. -/
def ofColumns (columns : List (String × Array Float)) : Except Error (EventTable α) :=
  columns.foldlM (fun t c => t.addColumn c.1 c.2)
    (ofRows ((columns.head?.map fun c => c.2.size).getD 0))

/-- Adds a column computed by a kernel from scalar columns. -/
def defineColumn (t : EventTable α) (name : String) (kernel : Kernel) (inputs : List String) :
    Except Error (EventTable α) :=
  if t.hasColumn name then .error (.duplicateColumn name)
  else do
    let ids ← inputs.mapM (t.idOfKind .scalar)
    t.insert name (.derived ids kernel)

/-- Adds a column computed by a formula. -/
def defineFormula (t : EventTable α) (name source : String) : Except Error (EventTable α) :=
  match Formula.compile source with
  | .error fault => .error (.formula fault)
  | .ok formula => t.defineColumn name formula.kernel formula.inputs

/-- Keeps only the rows on which a scalar column is greater than zero. -/
def filterRows (t : EventTable α) (name : String) : Except Error (EventTable α) := do
  let id ← t.idOfKind .scalar name
  return { t with filters := t.filters ++ [id] }

/-- The number of aggregations that were ever subscribed, which is the ticket of the next one. -/
def nextTicket (t : EventTable α) : Nat :=
  t.finished.length + t.pending.length

/-- Makes an aggregation collect a vector column in the next event loop. -/
def subscribe (t : EventTable α) (name : String) (action : α) : Except Error (EventTable α) := do
  let id ← t.idOfKind .vector name
  return { t with pending := t.pending ++ [⟨id, action⟩] }

/-- The aggregation of a ticket, in its present state.  Event loops finish all that is pending, so
tickets number the finished ones first. -/
def aggregation? (t : EventTable α) (ticket : Nat) : Option α :=
  ((t.finished ++ t.pending)[ticket]?).map Subscription.action

/-- The values of the scalar column at a position, on the rows that pass the filters, in order. -/
def survivorsAt (t : EventTable α) (id : Nat) : List Float :=
  let schedule := Schedule.make t.columns t.filters [id]
  let (values, _) := (List.range t.rows).foldl (fun (values, buffers) row =>
      let (buffers, kept) := RowBuffers.evalRow t.columns schedule buffers row
      (if kept then values.push (buffers.scalar id) else values, buffers))
    ((#[] : Array Float), RowBuffers.empty t.columns.size)
  values.toList

/-- The values of a scalar column on the rows that pass the filters, in order. -/
def survivors (t : EventTable α) (name : String) : Except Error (List Float) := do
  let id ← t.idOfKind .scalar name
  return t.survivorsAt id

/-- A one-line description of a table. -/
def describe (t : EventTable α) : String :=
  let names := String.intercalate ", " (t.columnNames.map Text.quoted)
  let fields := [s!"n_rows: {t.rows}", s!"n_threads: {t.threads}", s!"columns: [{names}]",
    s!"filters: {t.filters.length}", s!"pending: {t.pending.length}", s!"runs: {t.runs}"]
  "Frame \x7b " ++ String.intercalate ", " fields ++ " \x7d"

end EventTable

end VariHist
