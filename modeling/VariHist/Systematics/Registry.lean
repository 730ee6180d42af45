import VariHist.Naming
import VariHist.Systematics.NameMap

/-!
# The registry of systematics

The registry says which columns each systematic affects.  Systematics keep the order in which they
were first mentioned, and so do the columns of one systematic; nothing is ever removed.  A
systematic may be registered without affecting anything.

The pairs are kept twice, by systematic and by column, so that both questions are answered by a
lookup.
-/

namespace VariHist

/-- The columns affected by each systematic. -/
structure Registry where
  /-- The columns that each systematic affects. -/
  bySystematic : NameMap
  /-- The systematics that affect each column. -/
  byColumn : NameMap
  mirrored : ∀ s c, c ∈ bySystematic.names s ↔ s ∈ byColumn.names c

namespace Registry

/-- No systematics. -/
def empty : Registry := ⟨.empty, .empty, fun _ _ => by simp [NameMap.names, NameMap.empty]⟩

/-- Each systematic with its columns. -/
def entries (r : Registry) : List (String × List String) :=
  r.bySystematic.entries

/-- The systematics in order of first mention. -/
def systematics (r : Registry) : List String :=
  r.bySystematic.keys

/-- Is the systematic registered? -/
def contains (r : Registry) (systematic : String) : Bool :=
  r.bySystematic.hasKey systematic

/-- The columns that a systematic affects, in order of registration; none if it is unknown. -/
def affectedBy (r : Registry) (systematic : String) : List String :=
  r.bySystematic.names systematic

/-- Does the systematic affect the column? -/
def affects (r : Registry) (systematic column : String) : Bool :=
  (r.byColumn.names column).contains systematic

/-- The systematics that affect a column, in order of first mention.  A column's own list has them
in the order in which they came to affect it, so they are sorted by their positions. -/
def affecting (r : Registry) (column : String) : List String :=
  let placed := (r.byColumn.names column).filterMap fun s =>
    (r.systematics.idxOf? s).map fun i => (i, s)
  (placed.mergeSort fun a b => a.1 ≤ b.1).map Prod.snd

/-- Adds a systematic, unless it is registered. -/
def mention (r : Registry) (systematic : String) : Registry where
  bySystematic := r.bySystematic.addKey systematic
  byColumn := r.byColumn
  mirrored s c := by
    rw [NameMap.names_addKey]
    exact r.mirrored s c

/-- Adds a column to a systematic, in both maps. -/
def link (r : Registry) (systematic column : String) : Registry where
  bySystematic := r.bySystematic.insert systematic column
  byColumn := r.byColumn.insert column systematic
  mirrored s c := by
    rw [NameMap.mem_names_insert, NameMap.mem_names_insert, r.mirrored s c, and_comm]

/-- Adds columns to a systematic, and the systematic itself if it is new. -/
def register (r : Registry) (systematic : String) (columns : List String) : Registry :=
  columns.foldl (fun r c => r.link systematic c) (r.mention systematic)

/-- The columns of a list whose upward shifts by the systematic are in the list too: the `x` of
every `x_SUp`, as long as `x` is not empty. -/
def shiftedIn (systematic : String) (columns : List String) : List String :=
  columns.filterMap fun c =>
    (beforeSuffix? ("_" ++ variationLabel systematic .up) c).filter fun base => !base.isEmpty

/-- Registers systematics for the shifted columns that exist.  Downward shifts are not looked for,
and a systematic without any shifted column is registered all the same. -/
def registerExisting (r : Registry) (systematics columns : List String) : Registry :=
  systematics.foldl (fun r s => r.register s (shiftedIn s columns)) r

end Registry

end VariHist
