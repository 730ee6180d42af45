import VariHist.Decimal.Style
import VariHist.Formula.Fault
import VariHist.Table.Kernel

/-!
# Faults

Everything that can go wrong, as causes, and the text of each.  A `ConfigFault` is a fault of the
request: of a binning, a booking, an output name or an analysis description.  An `Error` is a
fault of any part of the program.
-/

namespace VariHist

/-- What a binning belongs to. -/
inductive BinningOwner where
  | selectionAxis
  | valueAxis (histogram : String)
  deriving DecidableEq, Repr

/-- How messages name the owner of a binning. -/
def BinningOwner.text : BinningOwner → String
  | .selectionAxis => "selection axis"
  | .valueAxis histogram => s!"histogram '{histogram}' value axis"

/-- The text of a path of directories, from the root. -/
def pathText (path : List String) : String :=
  "/" ++ String.intercalate "/" path

/-- A fault of a request. -/
inductive ConfigFault where
  -- binnings
  | unnamedVariable (owner : BinningOwner)
  | noBins (owner : BinningOwner) (column : String)
  | badRange (owner : BinningOwner) (column : String) (lo hi : Float)
  | unnamedHistogram
  | unnamedWeight (histogram : String)
  -- tables
  | columnLength (column : String) (given rows : Nat)
  -- sparse histograms
  | withoutAxes (histogram : String)
  | axisWithoutBins (histogram : String)
  | tooManyBins (histogram : String)
  -- bookings
  | noCatalogs
  | noSelectionAxes
  | catalogCount (catalogs axes : Nat)
  | catalogSize (column : String) (bins : UInt64) (labels : Nat)
  | malformedLabel (label : String)
  | outputTaken (histogram leaf : String) (path : List String)
  | outputShared (first second : String) (path : List String)
  -- output trees
  | badSegment (segment : String)
  | entryTaken (name : String) (path : List String)
  -- analyses
  | unreadableAnalysis
  | noHistograms
  | noVariationIndex
  | noSuffix
  | unnamedSystematic
  | unnamedDefine
  | defineNotExactlyOne (name : String)
  | defineNeither (name : String)
  | incompleteFilter
  | regionLabelCount (column : String) (labels : Nat) (bins : UInt64)
  | badRegionLabel (column label : String)

/-- The text of a fault of a request. -/
def ConfigFault.message : ConfigFault → String
  | .unnamedVariable owner => s!"{owner.text}: empty variable name"
  | .noBins owner column => s!"{owner.text} '{column}': bin count must be positive"
  | .badRange owner column lo hi =>
    let low := Decimal.text .message lo
    let high := Decimal.text .message hi
    s!"{owner.text} '{column}': invalid range [{low}, {high})"
  | .unnamedHistogram => "histogram definition: empty name"
  | .unnamedWeight histogram => s!"histogram '{histogram}': empty weight column"
  | .columnLength column given rows => s!"column '{column}' has {given} rows, frame has {rows}"
  | .withoutAxes histogram => s!"histogram '{histogram}' has no axes"
  | .axisWithoutBins histogram => s!"histogram '{histogram}' has an axis with no bins"
  | .tooManyBins histogram => s!"histogram '{histogram}' has too many bins for a sparse index"
  | .noCatalogs => "book_nd: no region catalogs"
  | .noSelectionAxes => "book_nd: no selection axes"
  | .catalogCount catalogs axes =>
    s!"book_nd: {catalogs} region catalogs for {axes} selection axes"
  | .catalogSize column bins labels =>
    s!"selection axis '{column}' has {bins} bins but {labels} region labels"
  | .malformedLabel label => s!"malformed variation label '{label}'"
  | .outputTaken histogram leaf path =>
    s!"histogram '{histogram}': output entry '{leaf}' already exists in '{pathText path}'"
  | .outputShared first second path =>
    s!"histograms '{first}' and '{second}' both flatten to '{pathText path}'"
  | .badSegment segment => s!"invalid output path segment '{segment}'"
  | .entryTaken name path => s!"output entry '{name}' already exists in '{pathText path}'"
  | .unreadableAnalysis => "analysis config"
  | .noHistograms => "`histograms` must not be empty"
  | .noVariationIndex => "`variation_index` must not be empty"
  | .noSuffix => "`suffix` must not be empty"
  | .unnamedSystematic => "systematic names must not be empty"
  | .unnamedDefine => "define: empty name"
  | .defineNotExactlyOne name =>
    s!"define '{name}': exactly one of `expr` or `value` is required"
  | .defineNeither name => s!"define '{name}': no expr or value"
  | .incompleteFilter => "filter: `name` and `expr` are required"
  | .regionLabelCount column labels bins =>
    s!"region axis '{column}': {labels} labels for {bins} bins"
  | .badRegionLabel column label => s!"region axis '{column}': invalid label '{label}'"

/-- A fault found while events are processed or results are put together. -/
inductive ComputationFault where
  /-- The workers of an event loop cannot be started. -/
  | noPool (reason : String)
  /-- An aggregation prepared another number of slots than it was asked for. -/
  | slotCount (aggregation : String) (prepared wanted : Nat)
  | axesDiffer (added target : String)
  | notFilled (histogram : String)

/-- The text of a fault of a computation. -/
def ComputationFault.message : ComputationFault → String
  | .noPool reason => s!"failed to create thread pool: {reason}"
  | .slotCount aggregation prepared wanted =>
    s!"aggregation '{aggregation}' prepared {prepared} slots, expected {wanted}"
  | .axesDiffer added target => s!"cannot add histogram '{added}' to '{target}': axes differ"
  | .notFilled histogram => s!"histogram '{histogram}' has not been filled"

/-- A fault of the disk. -/
inductive DiskFault where
  | notFound
  | alreadyExists
  | notDirectory
  | isDirectory
  | nameTooLong
  | nulInName
  | notText
  deriving DecidableEq, Repr

/-- The text of a fault of the disk. -/
def DiskFault.message : DiskFault → String
  | .notFound => "No such file or directory (os error 2)"
  | .alreadyExists => "File exists (os error 17)"
  | .notDirectory => "Not a directory (os error 20)"
  | .isDirectory => "Is a directory (os error 21)"
  | .nameTooLong => "File name too long (os error 36)"
  | .nulInName => "file name contained an unexpected NUL byte"
  | .notText => "stream did not contain valid UTF-8"

/-- A fault of any part of the program. -/
inductive Error where
  | disk (fault : DiskFault)
  | config (fault : ConfigFault)
  | missingColumn (name : String)
  | duplicateColumn (name : String)
  | columnKind (name : String) (expected actual : ColumnKind)
  | formula (fault : Formula.Fault)
  /-- The events cannot be read. -/
  | events (detail : String)
  | computation (fault : ComputationFault)

/-- The text of an error. -/
def Error.message : Error → String
  | .disk fault => "I/O error: " ++ fault.message
  | .config fault => "Configuration error: " ++ fault.message
  | .missingColumn name => s!"missing column: '{name}'"
  | .duplicateColumn name => s!"column already defined: '{name}'"
  | .columnKind name expected actual =>
    s!"column '{name}' has wrong type: expected {expected.text}, got {actual.text}"
  | .formula fault => "Expression error: " ++ fault.message
  | .events detail => "Parquet error: " ++ detail
  | .computation fault => "Computation error: " ++ fault.message

end VariHist
