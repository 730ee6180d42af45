import VariHist.Table.Basic

/-!
# Batches of events

Events arrive in batches of typed columns.  The numeric and truth-valued columns of the first batch
become columns of doubles, in its order; each is looked up by name in every batch, and its cells of
all batches are put one after another.  How cells are cast to doubles is not decided here.  A cell
without a value becomes NaN.
-/

namespace VariHist

/-- The type of the cells of a column. -/
inductive CellType where
  | bool
  | int8 | int16 | int32 | int64
  | uint8 | uint16 | uint32 | uint64
  | float16 | float32 | float64
  | utf8
  | date32
  deriving DecidableEq, Repr

namespace CellType

/-- The types by their names. -/
def names : List (String × CellType) :=
  [("bool", bool), ("int8", int8), ("int16", int16), ("int32", int32), ("int64", int64),
    ("uint8", uint8), ("uint16", uint16), ("uint32", uint32), ("uint64", uint64),
    ("float16", float16), ("float32", float32), ("float64", float64), ("utf8", utf8),
    ("date32", date32)]

/-- The type of a name. -/
def ofName? (name : String) : Option CellType :=
  names.lookup name

/-- Are columns of this type taken over? -/
def isNumeric : CellType → Bool
  | utf8 | date32 => false
  | _ => true

end CellType

/-- A cell of a column. -/
inductive Cell where
  | missing
  | truth (b : Bool)
  | integer (n : Int)
  | number (x : Float)
  | text (s : String)

/-- A column of a batch. -/
structure BatchColumn where
  name : String
  type : CellType
  cells : List Cell

/-- Columns of equal lengths. -/
structure EventBatch where
  columns : List BatchColumn

/-- A way to cast the cells of a column, given their type, to doubles. -/
class CellCast where
  /-- The doubles, nothing for cells without a value, or why the cells cannot be cast. -/
  cast : CellType → List Cell → Except String (List (Option Float))

namespace BatchColumn

/-- The cells of a column as doubles.  A cell without a value becomes NaN. -/
def toFloats [CellCast] (c : BatchColumn) : Except Error (List Float) :=
  match CellCast.cast c.type c.cells with
  | .error reason => .error (.events s!"casting '{c.name}': {reason}")
  | .ok values => .ok (values.map fun value => value.getD (0.0 / 0.0))

end BatchColumn

namespace EventBatch

/-- The column of a name. -/
def column? (b : EventBatch) (name : String) : Option BatchColumn :=
  b.columns.find? fun c => c.name = name

/-- The number of events of a batch. -/
def rows (b : EventBatch) : Nat :=
  (b.columns.head?.map fun c => c.cells.length).getD 0

/-- The names of the columns that are taken over, each once. -/
def numericNames (b : EventBatch) : List String :=
  ((b.columns.filter fun c => c.type.isNumeric).map BatchColumn.name).eraseDups

/-- The cells of the columns of these names as doubles. -/
def floatsOf [CellCast] (names : List String) (b : EventBatch) : Except Error (List (List Float)) :=
  names.mapM fun name =>
    match b.column? name with
    | some c => c.toFloats
    | none => .error (.missingColumn name)

/-- The columns of doubles that batches make up. -/
def toColumns [CellCast] (batches : List EventBatch) :
    Except Error (List (String × List Float)) := do
  match batches with
  | [] => return []
  | first :: _ =>
    let names := first.numericNames
    let parts ← batches.mapM (floatsOf names)
    let joined := parts.foldl (List.zipWith (· ++ ·)) (names.map fun _ => [])
    return names.zip joined

end EventBatch

/-- The table of the events in a file.  A file without events holds no batch, and so no column. -/
def EventTable.ofBatches {α : Type} [CellCast] (batches : List EventBatch) :
    Except Error (EventTable α) := do
  let columns ← EventBatch.toColumns (batches.filter fun b => b.rows ≠ 0)
  ofColumns (columns.map fun (name, values) => (name, values.toArray))

end VariHist
