import VariHist.Decimal.Reader
import VariHist.Events.Batch
import VariHist.Events.Precision

/-!
# A cast of cells

The cast that commands are carried out with, one cell after another.  Whole numbers and truth values
become the nearest doubles, numbers are rounded to the type of their column, and a text is read as a
number, NaN if it is none.  Dates cannot be cast.
-/

namespace VariHist

/-- The value that a cell is cast to, given the value of one that is not missing. -/
def Cell.castBy (value : Cell → Float) : Cell → Option Float
  | .missing => none
  | cell => some (value cell)

namespace Events

/-- A double rounded to the type of a column. -/
def roundTo (type : CellType) (x : Float) : Float :=
  match type with
  | .float16 => Precision.half.round x
  | .float32 => Precision.single.round x
  | _ => x

/-- A text without sign read as a number: a decimal, or a word for infinity in letters of either
case. -/
def readMagnitude (cs : List Char) : Float :=
  if ["inf", "infinity"].contains (String.ofList (cs.map Char.toLower)) then 1.0 / 0.0
  else (Decimal.readFloat? cs).getD (0.0 / 0.0)

/-- A text read as a number, which a sign may precede. -/
def readText (s : String) : Float :=
  match s.toList with
  | '-' :: cs => -readMagnitude cs
  | '+' :: cs => readMagnitude cs
  | cs => readMagnitude cs

/-- The value of a cell that is not missing. -/
def valueOf (type : CellType) : Cell → Float
  | .missing => 0.0 / 0.0
  | .truth b => if b then 1 else 0
  | .integer n => Float.ofInt n
  | .number x => roundTo type x
  | .text s => readText s

/-- Casts cells one by one. -/
@[reducible] def plainCast : CellCast where
  cast type cells :=
    if type = .date32 then .error "Cast error: Casting from Date32 to Float64 not supported"
    else .ok (cells.map (Cell.castBy (valueOf type)))

end Events

end VariHist
