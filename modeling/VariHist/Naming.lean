/-!
# Names of variations

A systematic uncertainty `S` shifts a quantity up or down by one standard deviation.  The shift is
labelled `SUp` or `SDown`, and the shifted copy of a column `x` is the column `x_SUp` or `x_SDown`.
The unshifted quantity carries the label `Nominal`.
-/

namespace VariHist

/-- The direction of a shift. -/
inductive Direction where
  | up
  | down
  deriving DecidableEq, Repr

namespace Direction

/-- Both directions, in the order in which they are listed everywhere. -/
def all : List Direction := [.up, .down]

/-- What is appended to the name of the systematic. -/
def suffix : Direction → String
  | .up => "Up"
  | .down => "Down"

end Direction

/-- The label of the unshifted quantity. -/
def nominalLabel : String := "Nominal"

/-- The label of a shift. -/
def variationLabel (systematic : String) (direction : Direction) : String :=
  systematic ++ direction.suffix

/-- The copy of column `base` under a label. -/
def labelledColumn (base label : String) : String :=
  base ++ "_" ++ label

/-- The copy of column `base` shifted by a systematic. -/
def variationColumn (base systematic : String) (direction : Direction) : String :=
  labelledColumn base (variationLabel systematic direction)

/-- The text before `ending`, if the text ends so. -/
def beforeSuffix? (ending text : String) : Option String :=
  if ending.toList.isSuffixOf text.toList then
    some (String.ofList (text.toList.take (text.length - ending.length)))
  else none

/-- The systematic and the direction of a label.  The nominal label has none, nor has a label
without a direction at its end or without a systematic before it. -/
def splitLabel? (label : String) : Option (String × Direction) :=
  if label = nominalLabel then none
  else
    let split := match beforeSuffix? Direction.up.suffix label with
      | some s => some (s, Direction.up)
      | none => (beforeSuffix? Direction.down.suffix label).map fun s => (s, Direction.down)
    split.filter fun s => !s.1.isEmpty

/-- The labels of a list of systematics: nominal first, then up and down of each in turn. -/
def variationLabels (systematics : List String) : List String :=
  nominalLabel :: systematics.flatMap fun s => Direction.all.map (variationLabel s)

end VariHist
