import VariHist.Table.Kernel

/-!
# Columns

A column of an event table holds its values, or computes them from columns that stand before it.
Columns are known by name outside and by position inside.
-/

namespace VariHist

/-- Where the values of a column come from. -/
inductive Source where
  /-- One number per event. -/
  | stored (values : Array Float)
  /-- A kernel over the columns at these positions. -/
  | derived (inputs : List Nat) (kernel : Kernel)

namespace Source

/-- Stored columns are scalar, derived ones are of the kind of their kernel. -/
def kind : Source → ColumnKind
  | .stored _ => .scalar
  | .derived _ kernel => kernel.kind

/-- The positions of the columns that are read. -/
def inputs : Source → List Nat
  | .stored _ => []
  | .derived inputs _ => inputs

end Source

/-- A named column. -/
structure Column where
  name : String
  source : Source

/-- What the column holds for each event. -/
def Column.kind (c : Column) : ColumnKind :=
  c.source.kind

end VariHist
