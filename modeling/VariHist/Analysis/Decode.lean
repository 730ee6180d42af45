import VariHist.Analysis.Description
import VariHist.Decimal.Reader
import VariHist.Yaml.Node

/-!
# Reading analysis descriptions

A description is a YAML text.  A text field takes any scalar as it is written, a number field only
a plain one.  Records refuse keys that they do not know and keys that are given twice.  Whatever is
wrong with the text or with the types in it, the fault is the same; a text that can be read is then
checked as a description.
-/

namespace VariHist

namespace Yaml.Node

/-- The text of a scalar. -/
def text? : Node → Option String
  | .scalar text _ => some text
  | _ => none

/-- The text of a plain scalar. -/
def plainText? : Node → Option String
  | .scalar text true => some text
  | _ => none

/-- Is the node left out? -/
def isOmitted : Node → Bool
  | .scalar "" true => true
  | _ => false

/-- The elements of a sequence; none if the node is left out. -/
def items? : Node → Option (List Node)
  | .sequence items => some items
  | node => if node.isOmitted then some [] else none

/-- The entries of a mapping, keys as text; none if the node is left out. -/
def fields? : Node → Option (List (String × Node))
  | .mapping entries => entries.mapM fun (key, value) => key.text?.map fun key => (key, value)
  | node => if node.isOmitted then some [] else none

/-- The fields of a record that knows these keys. -/
def record? (keys : List String) (node : Node) : Option (List (String × Node)) := do
  let fields ← node.fields?
  let given := fields.map Prod.fst
  if given.all keys.contains && given.eraseDups.length = given.length then some fields else none

/-- A node that may say that there is nothing. -/
def optional? {β : Type} (decode : Node → Option β) (node : Node) : Option (Option β) :=
  if (["", "~", "null", "Null", "NULL"].map some).contains node.plainText? then some none
  else (decode node).map some

/-- A natural number in some base, of one digit at least. -/
def natInBase? (base : Nat) (ds : List Char) : Option Nat :=
  if ds.isEmpty then none
  else ds.foldlM (fun n c =>
    (hexDigit? c).bind fun d => if d < base then some (base * n + d) else none) 0

/-- A word without its sign: decimal without leading zeros, or in base 16, 8 or 2 after a mark. -/
def natOf? (ds : List Char) : Option Nat :=
  match ds with
  | '0' :: 'x' :: rest => natInBase? 16 rest
  | '0' :: 'o' :: rest => natInBase? 8 rest
  | '0' :: 'b' :: rest => natInBase? 2 rest
  | '0' :: _ :: _ => none
  | ds => natInBase? 10 ds

/-- A count: a plain unsigned number that fits a word. -/
def count? (node : Node) : Option UInt64 := do
  let n ← match (← node.plainText?).toList with
    | '+' :: ds => natOf? ds
    | ds => natOf? ds
  if n < UInt64.size then some n.toUInt64 else none

/-- A finite unsigned decimal. -/
def finite? (ds : List Char) : Option Float :=
  (Decimal.readFloat? ds).filter Float.isFinite

/-- A double: a plain decimal, or one of the names of infinity and NaN. -/
def double? (node : Node) : Option Float := do
  match (← node.plainText?).toList with
  | '+' :: ds => infinity? ds <|> finite? ds
  | '-' :: ds => (infinity? ds <|> finite? ds).map fun x => -x
  | ds =>
    if [".nan", ".NaN", ".NAN"].contains (String.ofList ds) then some (0.0 / 0.0)
    else infinity? ds <|> finite? ds
where
  /-- One of the names of infinity. -/
  infinity? (ds : List Char) : Option Float :=
    if [".inf", ".Inf", ".INF"].contains (String.ofList ds) then some (1.0 / 0.0) else none

/-- A list of texts. -/
def texts? (node : Node) : Option (List String) := do
  (← node.items?).mapM text?

end Yaml.Node

namespace Analysis

open Yaml (Node)

/-- A field that has to be there. -/
def required? {β : Type} (decode : Node → Option β) (key : String) (fields : List (String × Node)) :
    Option β :=
  (fields.lookup key).bind decode

/-- A field that has a default. -/
def orDefault? {β : Type} (decode : Node → Option β) (default : β) (key : String)
    (fields : List (String × Node)) : Option β :=
  match fields.lookup key with
  | some node => decode node
  | none => some default

/-- A list of records. -/
def records? {β : Type} (decode : Node → Option β) (node : Node) : Option (List β) := do
  (← node.items?).mapM decode

/-- A definition. -/
def define? (node : Node) : Option DefineEntry := do
  let fields ← node.record? ["name", "expr", "value"]
  return {
    name := ← required? Node.text? "name" fields
    formula := ← orDefault? (Node.optional? Node.text?) none "expr" fields
    value := ← orDefault? (Node.optional? Node.double?) none "value" fields }

/-- A selection. -/
def filter? (node : Node) : Option FilterEntry := do
  let fields ← node.record? ["name", "expr"]
  return {
    name := ← required? Node.text? "name" fields
    formula := ← required? Node.text? "expr" fields }

/-- A region axis. -/
def region? (node : Node) : Option RegionEntry := do
  let fields ← node.record? ["variable", "bins", "lo", "hi", "labels"]
  return {
    column := ← required? Node.text? "variable" fields
    bins := ← required? Node.count? "bins" fields
    lo := ← required? Node.double? "lo" fields
    hi := ← required? Node.double? "hi" fields
    labels := ← required? Node.texts? "labels" fields }

/-- A histogram. -/
def histogram? (node : Node) : Option HistogramEntry := do
  let fields ← node.record? ["name", "variable", "label", "weight", "bins", "lo", "hi"]
  return {
    name := ← required? Node.text? "name" fields
    column := ← required? Node.text? "variable" fields
    label := ← orDefault? (Node.optional? Node.text?) none "label" fields
    weight := ← required? Node.text? "weight" fields
    bins := ← required? Node.count? "bins" fields
    lo := ← required? Node.double? "lo" fields
    hi := ← required? Node.double? "hi" fields }

/-- Sets the value of a key: in the place of the key if it is there, at the end otherwise. -/
def setKey {β : Type} (entries : List (String × β)) (key : String) (value : β) :
    List (String × β) :=
  if (entries.lookup key).isSome then
    entries.map fun e => if e.1 = key then (key, value) else e
  else entries ++ [(key, value)]

/-- The columns affected by each systematic; of a systematic given twice the last value counts. -/
def affects? (node : Node) : Option (List (String × List String)) := do
  (← node.fields?).foldlM (fun entries (key, value) => do
    return setKey entries key (← value.texts?)) []

/-- A description, unchecked. -/
def ofNode? (node : Node) : Option Analysis := do
  let fields ← node.record? ["systematics", "affects", "defines", "filters", "variation_index",
    "regions", "histograms", "suffix"]
  return {
    systematics := ← orDefault? Node.texts? [] "systematics" fields
    affects := ← orDefault? affects? [] "affects" fields
    defines := ← orDefault? (records? define?) [] "defines" fields
    filters := ← orDefault? (records? filter?) [] "filters" fields
    variationIndex := ← orDefault? Node.text? "systIdx" "variation_index" fields
    regions := ← orDefault? (records? region?) [] "regions" fields
    histograms := ← required? (records? histogram?) "histograms" fields
    suffix := ← orDefault? Node.text? "all" "suffix" fields }

/-- Reads a description without checking it. -/
def read (source : String) : Except ConfigFault Analysis :=
  match (Node.parse? source).bind ofNode? with
  | some a => .ok a
  | none => .error .unreadableAnalysis

/-- Reads and checks a description. -/
def readChecked (source : String) : Except ConfigFault Analysis := do
  let a ← read source
  a.check
  return a

end Analysis

end VariHist
