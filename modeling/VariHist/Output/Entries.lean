/-!
# Entries in order

Entries are values under names, in ascending order of the names, each name once.
-/

namespace VariHist

/-- Puts a value under a key of a list in ascending order of keys, in place of an older value. -/
def putInOrder {β : Type} (key : String) (value : β) : List (String × β) → List (String × β)
  | [] => [(key, value)]
  | e :: rest =>
    if key < e.1 then (key, value) :: e :: rest
    else if key = e.1 then (key, value) :: rest
    else e :: putInOrder key value rest

end VariHist
