import Std.Data.HashMap
import VariHist.Table.Run

/-!
# Tables with an index

A table that finds its columns through an index: a hash map from the names to the positions, beside
the kind of every column.  An operation checks what it has to check and then changes the index, the
kinds and the columns one after another, so nothing but the order of its steps keeps a refused
operation from leaving half of a change behind.  `VariHist.Proofs.Table.Indexed` shows that none
does, and that these tables behave as those that search their columns.
-/

namespace VariHist

/-- A table of events with an index of its columns. -/
structure IndexedTable (α : Type) extends EventTable α where
  /-- The position of each name. -/
  index : Std.HashMap String Nat
  /-- The kind of the column at each position. -/
  kinds : Array ColumnKind

namespace IndexedTable

variable {α : Type}

/-- A table without columns. -/
def ofRows (rows : Nat) : IndexedTable α :=
  { EventTable.ofRows rows with index := ∅, kinds := #[] }

/-- Sets the number of slots. -/
def withThreads (threads : Nat) : Step (IndexedTable α) Unit :=
  modify fun t => { t with threads }

/-- The position of a column. -/
def lookup (t : IndexedTable α) (name : String) : Except Error Nat :=
  match t.index[name]? with
  | some id => .ok id
  | none => .error (.missingColumn name)

/-- The position of a column that has to be of a kind. -/
def lookupKind (t : IndexedTable α) (kind : ColumnKind) (name : String) : Except Error Nat := do
  let id ← t.lookup name
  match t.kinds[id]? with
  | some actual => if actual = kind then .ok id else .error (.columnKind name kind actual)
  | none => .error (.missingColumn name)

/-- Adds a column at the end, if its name is free. -/
def insert (name : String) (kind : ColumnKind) (source : Source) : Step (IndexedTable α) Unit := do
  if (← get).index.contains name then throw (.duplicateColumn name)
  modify fun t => { t with index := t.index.insert name t.columns.size }
  modify fun t => { t with columns := t.columns.push ⟨name, source⟩, kinds := t.kinds.push kind }

/-- Adds a column of stored values, one per row. -/
def addColumn (name : String) (values : Array Float) : Step (IndexedTable α) Unit := do
  let rows := (← get).rows
  if values.size ≠ rows then throw (.config (.columnLength name values.size rows))
  insert name .scalar (.stored values)

/-- Adds a column computed by a kernel from scalar columns. -/
def defineColumn (name : String) (kernel : Kernel) (inputs : List String) :
    Step (IndexedTable α) Unit := do
  if (← get).index.contains name then throw (.duplicateColumn name)
  let ids ← Step.ask fun t => inputs.mapM (t.lookupKind .scalar)
  insert name kernel.kind (.derived ids kernel)

/-- Adds a column computed by a formula. -/
def defineFormula (name source : String) : Step (IndexedTable α) Unit :=
  match Formula.compile source with
  | .error fault => throw (.formula fault)
  | .ok formula => defineColumn name formula.kernel formula.inputs

/-- Keeps only the rows on which a scalar column is greater than zero. -/
def filterRows (name : String) : Step (IndexedTable α) Unit := do
  let id ← Step.ask fun t => t.lookupKind .scalar name
  modify fun t => { t with filters := t.filters ++ [id] }

/-- Makes an aggregation collect a vector column in the next event loop. -/
def subscribe (name : String) (action : α) : Step (IndexedTable α) Unit := do
  let id ← Step.ask fun t => t.lookupKind .vector name
  modify fun t => { t with pending := t.pending ++ [⟨id, action⟩] }

/-- Runs the event loop for all pending aggregations.  It knows columns by position only. -/
def run [Aggregation α] [Machine] : Step (IndexedTable α) Unit :=
  Step.within toEventTable (fun table t => { t with toEventTable := table }) EventTable.run

/-- The values of a scalar column on the rows that pass the filters, in order. -/
def survivors (name : String) : Step (IndexedTable α) (List Float) := do
  let id ← Step.ask fun t => t.lookupKind .scalar name
  return (← get).survivorsAt id

end IndexedTable

end VariHist
