/-!
# Sharing out the rows

The rows of a table are cut into one contiguous range per slot.  The lengths differ by one at most,
the longer ranges first; slots beyond the number of rows get nothing.
-/

namespace VariHist

/-- The rows `first`, `first + 1`, …, `count` of them. -/
structure RowRange where
  first : Nat
  count : Nat
  deriving DecidableEq, Repr

namespace RowRange

/-- The rows of a range. -/
def rows (r : RowRange) : List Nat :=
  List.range' r.first r.count

/-- The range of a slot. -/
def ofSlot (rows slots slot : Nat) : RowRange :=
  let share := rows / slots
  let extra := rows % slots
  ⟨slot * share + min slot extra, share + if slot < extra then 1 else 0⟩

/-- The ranges of all slots, in order. -/
def split (rows slots : Nat) : List RowRange :=
  (List.range slots).map (ofSlot rows slots)

end RowRange

end VariHist
