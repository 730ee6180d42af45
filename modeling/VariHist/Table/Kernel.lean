/-!
# Kernels

The function that computes a derived column from its inputs.  A kernel produces one number per
event or a list of numbers per event, and so decides the kind of its column.
-/

namespace VariHist

/-- What a column holds for each event. -/
inductive ColumnKind where
  /-- One number. -/
  | scalar
  /-- A list of numbers. -/
  | vector
  deriving DecidableEq, Repr

/-- How messages name a kind. -/
def ColumnKind.text : ColumnKind → String
  | .scalar => "scalar"
  | .vector => "vector"

/-- A function of the values of the input columns, in the order in which they were declared. -/
inductive Kernel where
  | scalar (f : List Float → Float)
  | vector (f : List Float → List Float)

namespace Kernel

/-- The kind of the columns that a kernel computes. -/
def kind : Kernel → ColumnKind
  | .scalar _ => .scalar
  | .vector _ => .vector

/-- The same number for every event, whatever the inputs. -/
def constant (value : Float) : Kernel :=
  .scalar fun _ => value

/-- All inputs in order. -/
def concat : Kernel :=
  .vector id

end Kernel

end VariHist
