import VariHist.Analysis.Decode
import VariHist.Events.Batch

/-!
# Files of events

A file of events is a YAML text, and so may be a JSON text: a list of batches, each a list of
columns `name`, `type` and `values`.  Values are scalars; a plain `null` is a missing value.
-/

namespace VariHist.EventBatch

open Yaml (Node)

/-- A whole number with its sign. -/
def integer? (text : String) : Option Int :=
  match text.toList with
  | '-' :: ds => (Node.natInBase? 10 ds).map fun n => -Int.ofNat n
  | ds => (Node.natInBase? 10 ds).map Int.ofNat

/-- A cell of a column. -/
def cell? (type : CellType) (node : Node) : Option Cell := do
  if (Node.plainText? node).any (["null", "~", ""].contains ·) then return .missing
  match type with
  | .bool => do
    match ← node.plainText? with
    | "true" => return .truth true
    | "false" => return .truth false
    | _ => none
  | .utf8 => return .text (← node.text?)
  | .float16 | .float32 | .float64 => return .number (← node.double?)
  | _ => return .integer (← integer? (← node.plainText?))

/-- A column of a batch. -/
def batchColumn? (node : Node) : Option BatchColumn := do
  let fields ← node.record? ["name", "type", "values"]
  let type ← CellType.ofName? (← (← fields.lookup "type").text?)
  return {
    name := ← (← fields.lookup "name").text?
    type
    cells := ← (← (← fields.lookup "values").items?).mapM (cell? type) }

/-- The batches of a file. -/
def parse? (source : String) : Option (List EventBatch) := do
  (← (← Node.parse? source).items?).mapM fun batch => do
    return ⟨← (← batch.items?).mapM batchColumn?⟩

end VariHist.EventBatch
