import VariHist.Step
import VariHist.Systematics.Registry
import VariHist.Table.Basic

/-!
# Tables with shifted columns

A definition made here is expanded by one step: for each systematic that affects an input, the new
column gets an upward and a downward copy, computed by the same kernel from the shifted inputs, and
is registered as affected itself.  Chains of definitions carry shifts along in this way, without
looking at the data.
-/

namespace VariHist

/-- A table together with the registry of its systematics. -/
structure VariedTable (α : Type) where
  table : EventTable α
  registry : Registry

namespace VariedTable

variable {α β : Type}

/-- A step on the table alone. -/
def onTable (step : Step (EventTable α) β) : Step (VariedTable α) β :=
  Step.within table (fun table v => { v with table }) step

/-- Adds a column to the table. -/
def addDerived (name : String) (kernel : Kernel) (inputs : List String) :
    Step (VariedTable α) Unit :=
  onTable (Step.attempt fun t => t.defineColumn name kernel inputs)

/-- Registers a column as affected by a systematic. -/
def register (systematic : String) (columns : List String) : Step (VariedTable α) Unit :=
  modify fun v => { v with registry := v.registry.register systematic columns }

/-- An input has to be a scalar column. -/
def checkInput (v : VariedTable α) (name : String) : Except Error Unit :=
  match v.table.kindOf? name with
  | none => .error (.missingColumn name)
  | some .scalar => .ok ()
  | some actual => .error (.columnKind name .scalar actual)

/-- The systematics that affect one of the inputs, in order. -/
def affectingAny (v : VariedTable α) (inputs : List String) : List String :=
  v.registry.systematics.filter fun s => inputs.any (v.registry.affects s)

/-- The inputs under a shift: each affected one is replaced by its shifted copy, which has to be a
scalar column too. -/
def shiftedInputs (v : VariedTable α) (inputs : List String) (systematic : String)
    (direction : Direction) : Except Error (List String) :=
  inputs.mapM fun c =>
    if v.registry.affects systematic c then do
      let shifted := variationColumn c systematic direction
      v.checkInput shifted
      return shifted
    else return c

/-- The shifted copies that a definition brings along, with their inputs. -/
def shiftedCopies (v : VariedTable α) (name : String) (inputs affecting : List String) :
    Except Error (List (String × List String)) :=
  (affecting.flatMap fun s => Direction.all.map fun d => (s, d)).mapM fun (s, d) => do
    return (variationColumn name s d, ← v.shiftedInputs inputs s d)

/-- What a definition adds: the systematics that affect it and its shifted copies.  Every input and
every shifted input has to be a scalar column, and every new name has to be free. -/
def planDefinition (v : VariedTable α) (name : String) (inputs : List String) :
    Except Error (List String × List (String × List String)) := do
  inputs.forM v.checkInput
  let affecting := v.affectingAny inputs
  let copies ← v.shiftedCopies name inputs affecting
  (name :: copies.map Prod.fst).forM fun c =>
    if v.table.hasColumn c then throw (.duplicateColumn c) else pure ()
  return (affecting, copies)

/-- Defines a column and its shifted copies, and registers it as affected.  The answer lists the
systematics that affect it. -/
def define (name : String) (kernel : Kernel) (inputs : List String) :
    Step (VariedTable α) (List String) := do
  let (affecting, copies) ← Step.ask fun v => v.planDefinition name inputs
  addDerived name kernel inputs
  copies.forM fun (copy, shifted) => addDerived copy kernel shifted
  affecting.forM fun s => register s [name]
  return affecting

/-- Defines a column computed by a formula, with its shifted copies. -/
def defineFormula (name source : String) : Step (VariedTable α) (List String) :=
  match Formula.compile source with
  | .error fault => throw (.formula fault)
  | .ok formula => define name formula.kernel formula.inputs

/-- Defines a column that holds the same number for every event.  It is never shifted. -/
def defineConstant (name : String) (value : Float) : Step (VariedTable α) Unit :=
  addDerived name (.constant value) []

/-- Keeps only the rows on which a scalar column is greater than zero. -/
def keepWhere (name : String) : Step (VariedTable α) Unit :=
  onTable (Step.attempt fun t => t.filterRows name)

/-- Defines a column with its shifted copies and keeps the rows on which the column itself is
greater than zero.  The copies drop no rows. -/
def filter (name : String) (kernel : Kernel) (inputs : List String) :
    Step (VariedTable α) (List String) := do
  let affecting ← define name kernel inputs
  keepWhere name
  return affecting

/-- Filters by a formula. -/
def filterFormula (name source : String) : Step (VariedTable α) (List String) := do
  let affecting ← defineFormula name source
  keepWhere name
  return affecting

/-- The index columns of the registered systematics: `base` itself, then the upward and downward
copy of each systematic in turn. -/
def indexColumns (v : VariedTable α) (base : String) : List String :=
  base :: v.registry.systematics.flatMap fun s => Direction.all.map (variationColumn base s)

/-- Builds the catalog of variations: the list of their labels, and for each label a constant
column that holds the label's position.  `base` is registered as affected by every systematic, so
that an axis over it keeps the variations apart. -/
def buildCatalog (base : String) : Step (VariedTable α) (List String) := do
  let v ← get
  match (v.indexColumns base).find? v.table.hasColumn with
  | some taken => throw (.duplicateColumn taken)
  | none =>
    (v.indexColumns base).zipIdx.forM fun (column, index) =>
      addDerived column (.constant index.toUInt64.toFloat) []
    v.registry.systematics.forM fun s => register s [base]
    return variationLabels v.registry.systematics

end VariedTable

end VariHist
