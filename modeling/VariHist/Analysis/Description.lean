import VariHist.Binning

/-!
# Analysis descriptions

What an analysis consists of: the systematics to look for, the columns to define, the selections,
the regions and the histograms.  A description is checked before anything is done with it.
-/

namespace VariHist

/-- A column to define: by a formula, or the same number for every event. -/
structure DefineEntry where
  name : String
  formula : Option String
  value : Option Float

/-- A selection: the column that tells which events to keep. -/
structure FilterEntry where
  name : String
  formula : String

/-- A binned column that sorts the events into labelled regions. -/
structure RegionEntry where
  column : String
  bins : UInt64
  lo : Float
  hi : Float
  labels : List String

/-- A histogram to fill. -/
structure HistogramEntry where
  name : String
  column : String
  label : Option String
  weight : String
  bins : UInt64
  lo : Float
  hi : Float

/-- An analysis. -/
structure Analysis where
  /-- The systematics to look for among the columns of the events. -/
  systematics : List String
  /-- Columns that are affected by a systematic whether or not their shifts are found. -/
  affects : List (String × List String)
  defines : List DefineEntry
  filters : List FilterEntry
  /-- The name of the index column of the variations. -/
  variationIndex : String
  regions : List RegionEntry
  histograms : List HistogramEntry
  /-- What is appended to the names of the histograms. -/
  suffix : String

namespace Analysis

open Text (isBlankText)

/-- The selection axes of the regions. -/
def selection (a : Analysis) : Except ConfigFault (List BinnedColumn) :=
  a.regions.mapM fun r => BinnedColumn.make r.column r.bins r.lo r.hi

/-- The labels of the regions. -/
def catalogs (a : Analysis) : List (List String) :=
  a.regions.map RegionEntry.labels

/-- The observables of the histograms; a histogram without a label is labelled by its column. -/
def observables (a : Analysis) : Except ConfigFault (List Observable) :=
  a.histograms.mapM fun h =>
    Observable.make h.name h.column (h.label.getD h.column) h.weight h.bins h.lo h.hi

/-- A definition has a name, and either a formula or a value. -/
def checkDefine (d : DefineEntry) : Except ConfigFault Unit :=
  if isBlankText d.name then .error .unnamedDefine
  else if d.formula.isSome == d.value.isSome then .error (.defineNotExactlyOne d.name)
  else .ok ()

/-- A selection has a name and a formula. -/
def checkFilter (f : FilterEntry) : Except ConfigFault Unit :=
  if isBlankText f.name || isBlankText f.formula then .error .incompleteFilter else .ok ()

/-- A region axis has a label for each bin; a label is not blank and has no separator in it. -/
def checkRegion (r : RegionEntry) : Except ConfigFault Unit :=
  if r.labels.length ≠ r.bins.toNat then
    .error (.regionLabelCount r.column r.labels.length r.bins)
  else match r.labels.find? fun l => isBlankText l || l.toList.contains '/' with
    | some label => .error (.badRegionLabel r.column label)
    | none => .ok ()

/-- Checks a description. -/
def check (a : Analysis) : Except ConfigFault Unit := do
  if a.histograms.isEmpty then throw .noHistograms
  if isBlankText a.variationIndex then throw .noVariationIndex
  if isBlankText a.suffix then throw .noSuffix
  if (a.systematics ++ a.affects.map Prod.fst).any isBlankText then throw .unnamedSystematic
  a.defines.forM checkDefine
  a.filters.forM checkFilter
  a.regions.forM checkRegion
  let _ ← a.selection
  let _ ← a.observables

end Analysis

end VariHist
