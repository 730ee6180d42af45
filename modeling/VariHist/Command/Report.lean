import VariHist.Analysis.Run
import VariHist.Output.Render

/-!
# What is printed

The answers of the commands as JSON values, with the keys of every object in order, and the text of
a failure: its cause, what was being done, and the causes of the cause.
-/

namespace VariHist

/-- The registry as a JSON value, in order of registration. -/
def Registry.toJson (r : Registry) : Json :=
  .object [("by_systematic",
    .object (r.entries.map fun (s, columns) => (s, .list (columns.map .text))))]

namespace Json

mutual

/-- The same value with the fields of every object in order of their keys. -/
def sortKeys : Json → Json
  | .list items => .list (sortItems items)
  | .object fields =>
    .object ((sortFields fields).mergeSort fun a b => !(b.1 < a.1))
  | v => v

/-- The same for the elements of a list. -/
def sortItems : List Json → List Json
  | [] => []
  | v :: rest => sortKeys v :: sortItems rest

/-- The same for the fields of an object. -/
def sortFields : List (String × Json) → List (String × Json)
  | [] => []
  | (key, v) :: rest => (key, sortKeys v) :: sortFields rest

end

end Json

/-- What is printed of a run. -/
def RunReport.toJson (r : RunReport) : Json :=
  .object [
    ("rows", .natural r.rows),
    ("threads", .natural r.threads),
    ("variations", .list (r.variations.map .text)),
    ("histograms", .list (r.histograms.map fun h => .object [
      ("name", .text h.name),
      ("num_fills", .natural h.points),
      ("entries", .natural h.entries.toNat)])),
    ("outputs", .natural r.outputs)]

/-- What is printed of a table and its registry. -/
def inspectionToJson {α : Type} (t : EventTable α) (r : Registry) : Json :=
  .object [
    ("rows", .natural t.rows),
    ("columns", .list (t.columnNames.map .text)),
    ("registry", r.toJson),
    ("variations", .list ((variationLabels r.systematics).map .text))]

/-- Why a command failed: a message, and what caused it, outermost first. -/
structure Failure where
  message : String
  causes : List String

namespace Failure

/-- The failure for an error; a fault of the disk is its own cause. -/
def ofError : Error → Failure
  | .disk fault => ⟨(Error.disk fault).message, [fault.message]⟩
  | e => ⟨e.message, []⟩

/-- The failure of something larger. -/
def during (f : Failure) (message : String) : Failure :=
  ⟨message, f.message :: f.causes⟩

/-- The lines of a text, at the line feeds. -/
def lines (s : String) : List String :=
  (s.splitOn "\n")

/-- A cause, with its number if there are several; further lines are indented as far. -/
def causeText (number : Option Nat) (cause : String) : String :=
  let (first, next) := match number with
    | some n =>
      let digits := toString n
      (String.ofList (List.replicate (5 - digits.length) ' ') ++ digits ++ ": ", "       ")
    | none => ("    ", "    ")
  first ++ String.intercalate ("\n" ++ next) (lines cause)

/-- The text of a failure. -/
def text (f : Failure) : String :=
  let causes := match f.causes with
    | [] => ""
    | [cause] => "\n\nCaused by:\n" ++ causeText none cause
    | causes => "\n\nCaused by:\n" ++ String.intercalate "\n"
        (causes.zipIdx.map fun (cause, n) => causeText (some n) cause)
  "Error: " ++ f.message ++ causes ++ "\n"

end Failure

end VariHist
