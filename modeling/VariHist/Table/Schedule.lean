import VariHist.Table.Column

/-!
# What is evaluated for a row

Only the columns that something depends on are evaluated: first those that the filters depend on,
then, for the rows that pass, the others that the wanted columns depend on.  Both lists are in
ascending order of position, and since a column reads columns before it only, everything a column
reads has been evaluated when its turn comes.
-/

namespace VariHist

/-- The columns to evaluate for each row. -/
structure Schedule where
  /-- What the filters depend on, the filters included. -/
  beforeFilters : List Nat
  /-- The filters themselves. -/
  filters : List Nat
  /-- What else the wanted columns depend on, these included. -/
  afterFilters : List Nat
  deriving Repr

namespace Schedule

/-- Marks a column and everything that it depends on.  The walk stops at columns that are marked
already.  Inputs stand before the column that reads them, so the walk ends. -/
def mark (columns : Array Column) (id : Nat) (marks : Array Bool) : Array Bool :=
  if marks[id]? = some false then
    let inputs := (columns[id]?.map fun c => c.source.inputs).getD []
    inputs.foldl (fun m i => if _h : i < id then mark columns i m else m)
      (marks.setIfInBounds id true)
  else marks
termination_by id

/-- Marks several columns, one after another. -/
def markAll (columns : Array Column) (ids : List Nat) (marks : Array Bool) : Array Bool :=
  ids.foldl (fun m id => mark columns id m) marks

/-- The schedule for filters and wanted columns. -/
def make (columns : Array Column) (filters targets : List Nat) : Schedule :=
  let forFilters := markAll columns filters (Array.replicate columns.size false)
  let forAll := markAll columns targets forFilters
  let positions := List.range columns.size
  { beforeFilters := positions.filter fun i => forFilters.getD i false
    filters
    afterFilters := positions.filter fun i => forAll.getD i false && !forFilters.getD i false }

end Schedule

end VariHist
