import VariHist.Table.Schedule

/-!
# Evaluating a row

One buffer per column holds the value of the column on the row at hand.  The buffers are made once
and used for all rows of a slot; a value left over from an earlier row is never read, since a
scheduled column reads only columns that were scheduled before it.
-/

namespace VariHist

/-- The values of the columns on the row at hand, by position. -/
structure RowBuffers where
  scalars : Array Float
  vectors : Array (List Float)

namespace RowBuffers

/-- Buffers for `n` columns. -/
def empty (n : Nat) : RowBuffers :=
  ⟨Array.replicate n 0, Array.replicate n []⟩

/-- The scalar at a position. -/
def scalar (b : RowBuffers) (id : Nat) : Float :=
  b.scalars.getD id 0

/-- The vector at a position. -/
def vector (b : RowBuffers) (id : Nat) : List Float :=
  b.vectors.getD id []

/-- Evaluates one column. -/
def evalColumn (columns : Array Column) (row : Nat) (b : RowBuffers) (id : Nat) : RowBuffers :=
  match columns[id]?.map Column.source with
  | none => b
  | some (.stored values) => { b with scalars := b.scalars.setIfInBounds id (values.getD row 0) }
  | some (.derived inputs (.scalar f)) =>
    { b with scalars := b.scalars.setIfInBounds id (f (inputs.map b.scalar)) }
  | some (.derived inputs (.vector f)) =>
    { b with vectors := b.vectors.setIfInBounds id (f (inputs.map b.scalar)) }

/-- Does the row pass?  A filter passes a row where it is greater than zero. -/
def passes (b : RowBuffers) (filters : List Nat) : Bool :=
  filters.all fun id => 0 < b.scalar id

/-- Evaluates what is scheduled, and tells whether the row passes the filters.  After a filter has
rejected a row, nothing more is evaluated. -/
def evalRow (columns : Array Column) (schedule : Schedule) (b : RowBuffers) (row : Nat) :
    RowBuffers × Bool :=
  let b := schedule.beforeFilters.foldl (evalColumn columns row) b
  if b.passes schedule.filters then
    (schedule.afterFilters.foldl (evalColumn columns row) b, true)
  else (b, false)

end RowBuffers

end VariHist
