/-!
# Paths

A path is a text of pieces between slashes.  The pieces that hold something are its steps: a dot
stays where it is, two dots go up, and any other piece goes to what has this name.
-/

namespace VariHist

/-- A path on a disk. -/
structure DiskPath where
  /-- Does the path begin at the root of the disk, and not at the working directory? -/
  isAbsolute : Bool
  /-- What stands between the slashes; between two slashes in a row there is an empty piece. -/
  pieces : List String
  deriving DecidableEq, Repr

namespace DiskPath

/-- The path that a text spells. -/
def ofText (text : String) : DiskPath :=
  match text.toList with
  | '/' :: cs => ⟨true, (String.ofList cs).splitOn "/"⟩
  | _ => ⟨false, text.splitOn "/"⟩

/-- The text of a path. -/
def text (p : DiskPath) : String :=
  (if p.isAbsolute then "/" else "") ++ String.intercalate "/" p.pieces

/-- The steps of a path. -/
def steps (p : DiskPath) : List String :=
  p.pieces.filter (· ≠ "")

/-- Does the path end in a slash, and so mean a directory? -/
def endsInSlash (p : DiskPath) : Bool :=
  p.pieces.getLast? = some ""

/-- The path of something in the directory at a path. -/
def child (p : DiskPath) (name : String) : DiskPath :=
  ⟨p.isAbsolute, (if p.endsInSlash then p.pieces.dropLast else p.pieces) ++ [name]⟩

/-- The pieces of a path, last first, without those that end it and say nothing: the empty ones, and
the dots, except for a dot that begins the path. -/
def dropIdle (isAbsolute : Bool) : List String → List String
  | [] => []
  | piece :: before =>
    if piece = "" || (piece = "." && (isAbsolute || !before.isEmpty)) then
      dropIdle isAbsolute before
    else piece :: before

/-- The path without its last step that says something, as a text.  Two dots are such a step, so
this need not be the directory that the path leads into. -/
def parent? (p : DiskPath) : Option DiskPath :=
  match dropIdle p.isAbsolute p.pieces.reverse with
  | [] => none
  | _ :: before => some ⟨p.isAbsolute, (dropIdle p.isAbsolute before).reverse⟩

theorem length_dropIdle_le (isAbsolute : Bool) (pieces : List String) :
    (dropIdle isAbsolute pieces).length ≤ pieces.length := by
  fun_induction dropIdle isAbsolute pieces <;> grind

/-- A parent has fewer pieces. -/
theorem length_pieces_lt_of_parent? {p q : DiskPath} (h : p.parent? = some q) :
    q.pieces.length < p.pieces.length := by
  have hp := length_dropIdle_le p.isAbsolute p.pieces.reverse
  unfold parent? at h
  split at h
  · simp at h
  · next last before heq =>
    rw [heq] at hp
    have hq := length_dropIdle_le p.isAbsolute before
    injection h with h
    subst h
    simp only [List.length_reverse, List.length_cons] at *
    omega

end DiskPath

end VariHist
