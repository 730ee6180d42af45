import Mathlib
import VariHist.Output.Disk
import VariHist.Proofs.Output.Tree

/-!
# What a write does to a disk

A disk is looked at place by place: a file with its text, a directory, or nothing.  A path leads to
a directory if its steps do, and it still does so after more has been put onto the disk.

* `item?_put` — what is put at a free place stands there, and nothing else changes.
* `LeadsTo`, `Extends.leadsTo` — a path leads to the directory at a place, and keeps to it.
* `Admits.find` — a path into a directory names what stands there.
* `write_file`, `write_directory` — a write at a free place is made.
* `write_directory_over_file` — a directory cannot be made in place of a file.
-/

namespace VariHist

/-- What stands at a place. -/
inductive DiskItem where
  | file (text : String)
  | directory

namespace DiskEntry

/-- The entry itself, without what is below it. -/
def item : DiskEntry → DiskItem
  | .file text => .file text
  | .directory _ => .directory

variable {e entry : DiskEntry} {name : String} {place rest : List String}

theorem at?_nil (e : DiskEntry) : e.at? [] = some e := by
  cases e with
  | file text => rfl
  | directory entries => rfl

theorem at?_directory (entries : List (String × DiskEntry)) (name : String)
    (place : List String) :
    (DiskEntry.directory entries).at? (name :: place) = (entries.lookup name).bind (at? place) :=
  rfl

/-- A file has nothing below. -/
theorem at?_file (text : String) (hrest : rest ≠ []) : (DiskEntry.file text).at? rest = none := by
  cases rest with
  | nil => exact absurd rfl hrest
  | cons name rest => rfl

/-- An empty directory has nothing below. -/
theorem at?_empty (hrest : rest ≠ []) : (DiskEntry.directory []).at? rest = none := by
  cases rest with
  | nil => exact absurd rfl hrest
  | cons name rest => rfl

theorem at?_append (e : DiskEntry) (place rest : List String) :
    e.at? (place ++ rest) = (e.at? place).bind (at? rest) := by
  induction place generalizing e with
  | nil => rw [at?_nil, List.nil_append, Option.bind_some]
  | cons name place ih =>
    cases e with
    | file text => rfl
    | directory entries =>
      rw [List.cons_append, at?_directory, at?_directory, Option.bind_assoc]
      exact Option.bind_congr fun e _ => ih e

/-- What is put into a directory shows at and below its place, and nothing else changes. -/
theorem item_put {entries : List (String × DiskEntry)}
    (hplace : e.at? place = some (.directory entries)) (entry : DiskEntry) (name : String)
    (q : List String) : ((entry.put (place ++ [name]) e).at? q).map item =
      if place ++ [name] <+: q then (entry.at? (q.drop (place.length + 1))).map item
      else (e.at? q).map item := by
  induction place generalizing e q with
  | nil =>
    rw [at?_nil] at hplace
    cases hplace
    cases q with
    | nil => simp [put, at?_nil, item]
    | cons m q =>
      rw [List.nil_append, put, at?_directory, at?_directory, lookup_putInOrder]
      by_cases hm : m = name
      · simp [hm, put]
      · simp [hm, Ne.symm hm]
  | cons n place ih =>
    cases e with
    | file text => cases hplace
    | directory below =>
      rw [at?_directory, Option.bind_eq_some_iff] at hplace
      obtain ⟨e', hlookup, hplace⟩ := hplace
      cases q with
      | nil => simp [put, at?_nil, item]
      | cons m q =>
        rw [List.cons_append, put, at?_directory, at?_directory, lookup_putInOrder, hlookup,
          Option.getD_some]
        by_cases hm : m = n
        · subst hm
          rw [if_pos rfl, Option.bind_some, ih hplace, hlookup, Option.bind_some]
          simp
        · simp [hm, Ne.symm hm]

end DiskEntry

/-- The path of what a write makes. -/
def DiskWrite.path : DiskWrite → DiskPath
  | directory path => path
  | file path _ => path

/-- Does a disk take the text of a path and the names of its steps? -/
def DiskRules.Accepts (r : DiskRules) (p : DiskPath) : Prop :=
  r.checkPath p.text = .ok () ∧ ∀ s ∈ p.steps, r.checkName s = .ok ()

namespace DiskPath

variable {name : String}

theorem steps_child (p : DiskPath) (hname : name ≠ "") :
    (p.child name).steps = p.steps ++ [name] := by
  have hpieces : (if p.endsInSlash then p.pieces.dropLast else p.pieces).filter (· ≠ "") =
      p.steps := by
    split_ifs with hslash
    · have hlast : p.pieces = p.pieces.dropLast ++ [""] :=
        (List.dropLast_append_getLast? "" (of_decide_eq_true hslash)).symm
      rw [steps, hlast, List.filter_append]
      simp
    · rfl
  rw [steps, child, List.filter_append, hpieces]
  simp [hname]

theorem text_child_ne_empty (p : DiskPath) (hname : name ≠ "") : (p.child name).text ≠ "" := by
  rw [text, child]
  by_cases hpieces : (if p.endsInSlash then p.pieces.dropLast else p.pieces) = []
  · simp [hpieces, hname]
  · rw [String.intercalate_append_of_ne_nil hpieces (by simp)]
    simp

theorem endsInSlash_child (p : DiskPath) (hname : name ≠ "") :
    (p.child name).endsInSlash = false := by
  simp [endsInSlash, child, hname]

theorem exists_parent?_child (p : DiskPath) (hname : name ≠ "") (hdot : name ≠ ".") :
    ∃ q, (p.child name).parent? = some q := by
  simp [parent?, child, dropIdle, hname, hdot]

/-- The empty path has no parent. -/
theorem parent?_of_text_eq_empty {p : DiskPath} (h : p.text = "") : p.parent? = none := by
  obtain ⟨isAbsolute, pieces⟩ := p
  cases isAbsolute with
  | true => simp [text] at h
  | false =>
    rcases pieces with _ | ⟨piece, _ | ⟨piece', pieces⟩⟩
    · rfl
    · have hpiece : piece = "" := by simpa [text] using h
      rw [hpiece]
      rfl
    · simp [text] at h

end DiskPath

namespace Disk

variable {d d' : Disk} {entry : DiskEntry} {place rest : List String} {name text : String}
  {item : DiskItem}

/-- What stands at a place. -/
def item? (d : Disk) (place : List String) : Option DiskItem :=
  (d.root.at? place).map DiskEntry.item

theorem item?_eq_directory_iff :
    d.item? place = some .directory ↔ ∃ entries, d.root.at? place = some (.directory entries) := by
  rw [item?]
  rcases d.root.at? place with _ | (text | entries)
  · simp
  · simp [DiskEntry.item]
  · simp [DiskEntry.item]

/-- Nothing stands below what is no directory. -/
theorem item?_below (h : d.item? place ≠ some .directory) (hrest : rest ≠ []) :
    d.item? (place ++ rest) = none := by
  rw [item?, DiskEntry.at?_append]
  rcases hentry : d.root.at? place with _ | (text | entries)
  · rfl
  · rw [Option.bind_some, DiskEntry.at?_file text hrest, Option.map_none]
  · exact absurd (item?_eq_directory_iff.2 ⟨entries, hentry⟩) h

/-- What has nothing below and is put at a free place stands there, and nothing else changes. -/
theorem item?_put (hplace : d.item? place = some .directory)
    (hfree : d.item? (place ++ [name]) ≠ some .directory)
    (hentry : ∀ rest, rest ≠ [] → entry.at? rest = none) (q : List String) :
    (d.put entry (place ++ [name])).item? q =
      if q = place ++ [name] then some entry.item else d.item? q := by
  obtain ⟨entries, hentries⟩ := item?_eq_directory_iff.1 hplace
  refine (DiskEntry.item_put hentries entry name q).trans ?_
  split_ifs with hprefix heq heq
  · rw [heq, List.drop_eq_nil_of_le (by simp), DiskEntry.at?_nil, Option.map_some]
  · obtain ⟨rest, rfl⟩ := hprefix
    have hrest : rest ≠ [] := fun hnil => heq (by rw [hnil, List.append_nil])
    rw [item?_below hfree hrest, List.drop_left' (by simp), hentry rest hrest, Option.map_none]
  · exact absurd (heq ▸ List.prefix_refl _) hprefix
  · rfl

/-! ## Steps -/

theorem names_directoryOf (d : Disk) (names : List String) :
    (d.directoryOf names).names = names := by
  unfold directoryOf
  split
  · rfl
  · rfl

/-- What a directory holds under a name. -/
theorem lookup_directoryOf (d : Disk) (names : List String) (name : String) :
    (d.directoryOf names).entries.lookup name = d.root.at? (names.reverse ++ [name]) := by
  unfold directoryOf
  rw [DiskEntry.at?_append]
  rcases d.root.at? names.reverse with _ | (text | entries)
  · rfl
  · rfl
  · exact (Option.bind_fun_some _).symm

theorem directoryOf_of_at? {names : List String} {entries : List (String × DiskEntry)}
    (h : d.root.at? names.reverse = some (.directory entries)) :
    d.directoryOf names = ⟨names, entries⟩ := by
  rw [directoryOf, h]

/-- A step to a directory leads into it. -/
theorem enter_directory (names : List String) (hdot : name ≠ ".") (hdots : name ≠ "..")
    (haccept : d.rules.checkName name = .ok ())
    (hdir : d.item? (names.reverse ++ [name]) = some .directory) :
    d.enter (d.directoryOf names) name = .ok (d.directoryOf (name :: names)) := by
  obtain ⟨entries, hentries⟩ := item?_eq_directory_iff.1 hdir
  have hnext : d.directoryOf (name :: names) = ⟨name :: names, entries⟩ :=
    directoryOf_of_at? (by rw [List.reverse_cons, hentries])
  rw [enter, if_neg hdot, if_neg hdots, haccept, lookup_directoryOf, hentries,
    names_directoryOf, hnext]
  rfl

/-- A step to a name leads into a directory that the disk takes the name of. -/
theorem of_enter_eq_ok {names : List String} {here : OpenDirectory} (hdot : name ≠ ".")
    (hdots : name ≠ "..") (hstep : d.enter (d.directoryOf names) name = .ok here) :
    d.rules.checkName name = .ok () ∧ d.item? (names.reverse ++ [name]) = some .directory := by
  rw [enter, if_neg hdot, if_neg hdots, lookup_directoryOf] at hstep
  cases haccept : d.rules.checkName name with
  | error fault => rw [haccept] at hstep; cases hstep
  | ok u =>
    rw [haccept] at hstep
    refine ⟨rfl, item?_eq_directory_iff.2 ?_⟩
    rcases hentry : d.root.at? (names.reverse ++ [name]) with _ | (text | entries)
    · rw [hentry] at hstep; cases hstep
    · rw [hentry] at hstep; cases hstep
    · exact ⟨entries, rfl⟩

/-- The disk has more on it: what was a directory still is one. -/
structure Extends (d d' : Disk) : Prop where
  home : d'.home = d.home
  rules : d'.rules = d.rules
  directories : ∀ place, d.item? place = some .directory → d'.item? place = some .directory

/-- A step that can be taken can be taken when more is on the disk. -/
theorem Extends.enter (h : d.Extends d') {names : List String} {here : OpenDirectory}
    (hstep : d.enter (d.directoryOf names) name = .ok here) :
    ∃ names', here = d.directoryOf names' ∧
      d'.enter (d'.directoryOf names) name = .ok (d'.directoryOf names') := by
  by_cases hdot : name = "."
  · rw [Disk.enter, if_pos hdot] at hstep
    cases hstep
    exact ⟨names, rfl, by rw [Disk.enter, if_pos hdot]⟩
  by_cases hdots : name = ".."
  · rw [Disk.enter, if_neg hdot, if_pos hdots, names_directoryOf] at hstep
    cases hstep
    exact ⟨names.tail, rfl, by rw [Disk.enter, if_neg hdot, if_pos hdots, names_directoryOf]⟩
  · obtain ⟨haccept, hdir⟩ := of_enter_eq_ok hdot hdots hstep
    rw [enter_directory names hdot hdots haccept hdir] at hstep
    cases hstep
    exact ⟨name :: names, rfl,
      enter_directory names hdot hdots (h.rules ▸ haccept) (h.directories _ hdir)⟩

theorem Extends.steps (h : d.Extends d') {steps names : List String} {here : OpenDirectory}
    (hsteps : steps.foldlM d.enter (d.directoryOf names) = .ok here) :
    ∃ names', here = d.directoryOf names' ∧
      steps.foldlM d'.enter (d'.directoryOf names) = .ok (d'.directoryOf names') := by
  induction steps generalizing names with
  | nil =>
    cases hsteps
    exact ⟨names, rfl, rfl⟩
  | cons step steps ih =>
    rw [List.foldlM_cons] at hsteps
    cases hfirst : d.enter (d.directoryOf names) step with
    | error fault => rw [hfirst] at hsteps; cases hsteps
    | ok next =>
      obtain ⟨names', rfl, hfirst'⟩ := h.enter hfirst
      rw [hfirst] at hsteps
      obtain ⟨names'', hhere, hrest⟩ := ih hsteps
      refine ⟨names'', hhere, ?_⟩
      rw [List.foldlM_cons, hfirst']
      exact hrest

/-! ## Paths to directories -/

/-- The steps of a path lead to the directory at a place. -/
structure LeadsTo (d : Disk) (p : DiskPath) (place : List String) : Prop where
  steps : p.steps.foldlM d.enter (d.directoryOf (if p.isAbsolute then [] else d.home.reverse)) =
    .ok (d.directoryOf place.reverse)
  directory : d.item? place = some .directory

theorem Extends.leadsTo (h : d.Extends d') {p : DiskPath} (hp : d.LeadsTo p place) :
    d'.LeadsTo p place := by
  obtain ⟨names, hhere, hsteps⟩ := h.steps hp.steps
  have hnames : place.reverse = names := by
    have := congrArg OpenDirectory.names hhere
    rwa [names_directoryOf, names_directoryOf] at this
  refine ⟨?_, h.directories place hp.directory⟩
  rw [h.home, hsteps, hnames]

/-- A path leads to the directory at a place, and something of this name may be in it. -/
structure Admits (d : Disk) (p : DiskPath) (place : List String) (name : String) : Prop where
  leadsTo : d.LeadsTo p place
  ne_empty : name ≠ ""
  ne_dot : name ≠ "."
  ne_dots : name ≠ ".."
  accepts : d.rules.Accepts (p.child name)

section Admits

variable {p : DiskPath}

theorem Extends.admits (h : d.Extends d') (ha : d.Admits p place name) :
    d'.Admits p place name :=
  ⟨h.leadsTo ha.leadsTo, ha.ne_empty, ha.ne_dot, ha.ne_dots, h.rules ▸ ha.accepts⟩

theorem Admits.checkName (h : d.Admits p place name) : d.rules.checkName name = .ok () :=
  h.accepts.2 name (by rw [DiskPath.steps_child p h.ne_empty]; simp)

theorem Admits.checkPath (h : d.Admits p place name) : d.checkPath (p.child name) = .ok () := by
  rw [Disk.checkPath, if_neg, h.accepts.1]
  rw [String.isEmpty_iff]
  exact DiskPath.text_child_ne_empty p h.ne_empty

theorem Admits.openParent (h : d.Admits p place name) :
    d.openParent (p.child name) = .ok (d.directoryOf place.reverse) := by
  rw [Disk.openParent, h.checkPath, DiskPath.steps_child p h.ne_empty, List.dropLast_concat]
  exact h.leadsTo.steps

/-- What a path names is what stands at the place. -/
theorem Admits.find (h : d.Admits p place name) :
    d.find (p.child name) = .ok (match d.item? (place ++ [name]) with
      | some .directory => .directory
      | some (.file text) => .file (place ++ [name]) text
      | none => .free (place ++ [name])) := by
  have hlast : (p.child name).steps.getLast? = some name := by
    rw [DiskPath.steps_child p h.ne_empty, List.getLast?_concat]
  have htarget : d.find (p.child name) = d.target (d.directoryOf place.reverse) name := by
    rw [Disk.find, h.openParent, hlast]
    rfl
  rw [htarget, Disk.target, if_neg (by simp [h.ne_dot, h.ne_dots]), h.checkName,
    lookup_directoryOf, List.reverse_reverse, names_directoryOf, item?, List.reverse_cons,
    List.reverse_reverse]
  rcases d.root.at? (place ++ [name]) with _ | (text | entries)
  · rfl
  · rfl
  · rfl

/-- The path of a directory in a directory. -/
theorem Admits.child (h : d.Admits p place name)
    (hdir : d.item? (place ++ [name]) = some .directory) :
    d.LeadsTo (p.child name) (place ++ [name]) := by
  refine ⟨?_, hdir⟩
  have henter := enter_directory place.reverse h.ne_dot h.ne_dots h.checkName
    (by rwa [List.reverse_reverse])
  rw [DiskPath.steps_child p h.ne_empty, List.foldlM_append, List.reverse_concat,
    show (p.child name).isAbsolute = p.isAbsolute from rfl, h.leadsTo.steps]
  exact (bind_pure _).trans henter

end Admits

/-! ## Single writes -/

section Writes

variable {p : DiskPath}

/-- A file can be made wherever no directory is. -/
theorem Admits.write_file (h : d.Admits p place name)
    (hfree : d.item? (place ++ [name]) ≠ some .directory) (text : String) :
    d.write (.file (p.child name) text) = (d.put (.file text) (place ++ [name]), none) := by
  have hfile : d.writeFile (p.child name) text = .ok (d.put (.file text) (place ++ [name])) := by
    rw [writeFile, h.openParent, DiskPath.endsInSlash_child p h.ne_empty, h.find]
    rcases hitem : d.item? (place ++ [name]) with _ | (old | _)
    · rfl
    · rfl
    · exact absurd hitem hfree
  rw [write, hfile]

/-- A directory can be made where nothing is. -/
theorem Admits.write_directory (h : d.Admits p place name)
    (hfree : d.item? (place ++ [name]) = none) :
    d.write (.directory (p.child name)) = (d.put (.directory []) (place ++ [name]), none) := by
  have hmade : d.makeDirectory (p.child name) = .ok (d.put (.directory []) (place ++ [name])) := by
    rw [makeDirectory, h.find, hfree]
    rfl
  obtain ⟨parent, hparent⟩ := DiskPath.exists_parent?_child p h.ne_empty h.ne_dot
  rw [write, makeDirectories]
  split
  · rename_i hnone
    rw [hparent] at hnone
    cases hnone
  · rw [hmade]

/-- A directory cannot be made where a file is. -/
theorem Admits.write_directory_over_file (h : d.Admits p place name)
    (hfile : d.item? (place ++ [name]) = some (.file text)) :
    d.write (.directory (p.child name)) = (d, some .alreadyExists) := by
  have hfind : d.find (p.child name) = .ok (.file (place ++ [name]) text) := by
    rw [h.find, hfile]
  have hmade : d.makeDirectory (p.child name) = .error .alreadyExists := by
    rw [makeDirectory, hfind]
    rfl
  have hother : d.isDirectory (p.child name) = false := by rw [isDirectory, hfind]
  obtain ⟨parent, hparent⟩ := DiskPath.exists_parent?_child p h.ne_empty h.ne_dot
  rw [write, makeDirectories]
  split
  · rename_i hnone
    rw [hparent] at hnone
    cases hnone
  · rw [hmade]
    simp [hother]

/-- A step that can be taken names a directory. -/
theorem target_of_enter {here next : OpenDirectory} (h : d.enter here name = .ok next) :
    d.target here name = .ok .directory := by
  by_cases hdot : name = "." ∨ name = ".."
  · rw [target, if_pos (by simpa using hdot)]
  · obtain ⟨hdot, hdots⟩ := not_or.1 hdot
    rw [enter, if_neg hdot, if_neg hdots] at h
    rw [target, if_neg (by simp [hdot, hdots])]
    cases haccept : d.rules.checkName name with
    | error fault => rw [haccept] at h; cases h
    | ok u =>
      rw [haccept] at h
      rcases hentry : here.entries.lookup name with _ | (text | entries)
      · rw [hentry] at h; cases h
      · rw [hentry] at h; cases h
      · rfl

/-- A path that leads to a directory names it. -/
theorem LeadsTo.find (h : d.LeadsTo p place) (hpath : d.checkPath p = .ok ()) :
    d.find p = .ok .directory := by
  have hsteps := h.steps
  rw [Disk.find, Disk.openParent, hpath]
  rcases List.eq_nil_or_concat p.steps with hnil | ⟨before, step, hconcat⟩
  · rw [hnil]
    rfl
  · rw [hconcat, List.concat_eq_append, List.foldlM_append] at hsteps
    rw [hconcat, List.concat_eq_append, List.dropLast_concat, List.getLast?_concat]
    cases hbefore : before.foldlM d.enter
        (d.directoryOf (if p.isAbsolute then [] else d.home.reverse)) with
    | error fault => rw [hbefore] at hsteps; cases hsteps
    | ok here =>
      rw [hbefore] at hsteps
      have hlast : d.enter here step = .ok (d.directoryOf place.reverse) :=
        (bind_pure _).symm.trans hsteps
      exact target_of_enter hlast

/-- A directory that is there is as good as made. -/
theorem LeadsTo.write_directory (h : d.LeadsTo p place) (haccept : d.rules.Accepts p) :
    d.write (.directory p) = (d, none) := by
  rw [write, makeDirectories]
  split
  · rfl
  · rename_i parent hparent
    have htext : p.text ≠ "" := fun htext => by
      rw [DiskPath.parent?_of_text_eq_empty htext] at hparent
      cases hparent
    have hfind : d.find p = .ok .directory := h.find (by
      rw [checkPath, if_neg (by rwa [String.isEmpty_iff]), haccept.1])
    have hmade : d.makeDirectory p = .error .alreadyExists := by
      rw [makeDirectory, hfind]
      rfl
    have hthere : d.isDirectory p = true := by rw [isDirectory, hfind]
    rw [hmade]
    simp [hthere]

end Writes

end Disk

end VariHist
