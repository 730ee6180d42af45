import Mathlib
import VariHist.Output.Render
import VariHist.Proofs.Output.Clashes
import VariHist.Proofs.Output.Disk

/-!
# Trees on disks

On a disk the directories and the files of a directory share one space of names, and the file of a
histogram has a longer name than the histogram.  So a histogram `a` and a directory `a.json` of a
tree have one place on a disk; nothing else stands in the way of writing a tree.

* `Gains`, `WritesOut` — what a list of writes adds to a disk below a place, and when it fails.
* `Shows`, `Collides` — the directories and files that a tree stands for, and two of them at one
  place.
* `isWrittenOut_node` — a tree is written out if its directories are.
* `writeAll_built` — so a tree that calls have made is written out, one file to a histogram, unless
  a file and a directory of it collide.
-/

namespace VariHist

/-! ## What is added to a disk -/

namespace Disk

variable {d d' d'' : Disk} {place : List String} {name : String}
  {shows shows' : List String → DiskItem → Prop} {clash clash' : Prop} {ws ws' : List DiskWrite}

/-- The second disk holds what the first one holds, and below a place what is shown there. -/
structure Gains (d d' : Disk) (place : List String) (shows : List String → DiskItem → Prop) :
    Prop where
  home : d'.home = d.home
  rules : d'.rules = d.rules
  items : ∀ q item, d'.item? q = some item ↔
    d.item? q = some item ∨ ∃ r, q = place ++ r ∧ shows r item

theorem Gains.extends (h : d.Gains d' place shows) : d.Extends d' :=
  ⟨h.home, h.rules, fun q hq => (h.items q _).2 (.inl hq)⟩

theorem Gains.congr (h : d.Gains d' place shows) (hshows : ∀ r item, shows r item ↔ shows' r item) :
    d.Gains d' place shows' :=
  ⟨h.home, h.rules, fun q item => by simp only [h.items, hshows]⟩

theorem Gains.trans (h : d.Gains d' place shows) (h' : d'.Gains d'' place shows') :
    d.Gains d'' place fun r item => shows r item ∨ shows' r item := by
  refine ⟨h'.home.trans h.home, h'.rules.trans h.rules, fun q item => ?_⟩
  rw [h'.items, h.items, or_assoc, ← exists_or]
  simp only [and_or_left]

/-- What is gained in a directory is gained in the one that it is in. -/
theorem Gains.below (h : d.Gains d' (place ++ [name]) shows) :
    d.Gains d' place fun r item => ∃ rest, r = name :: rest ∧ shows rest item := by
  refine ⟨h.home, h.rules, fun q item => ?_⟩
  rw [h.items]
  refine or_congr_right ⟨?_, ?_⟩
  · rintro ⟨rest, rfl, hshows⟩
    exact ⟨name :: rest, by simp, rest, rfl, hshows⟩
  · rintro ⟨_, rfl, rest, rfl, hshows⟩
    exact ⟨rest, by simp, hshows⟩

/-- Where nothing is shown nothing changes. -/
theorem Gains.item?_eq (h : d.Gains d' place shows) {r : List String}
    (hnot : ∀ item, ¬ shows r item) : d'.item? (place ++ r) = d.item? (place ++ r) := by
  refine Option.ext fun item => ?_
  rw [h.items, or_iff_left]
  rintro ⟨r', hr, hshows⟩
  rw [← List.append_cancel_left hr] at hshows
  exact hnot item hshows

theorem gains_nothing (d : Disk) (place : List String) : d.Gains d place fun _ _ => False :=
  ⟨rfl, rfl, by simp⟩

theorem gains_self (hdir : d.item? place = some .directory) :
    d.Gains d place fun r item => r = [] ∧ item = .directory := by
  refine ⟨rfl, rfl, fun q item => (or_iff_left_of_imp ?_).symm⟩
  rintro ⟨_, rfl, rfl, rfl⟩
  rwa [List.append_nil]

/-- What is put at a free place is all that is gained. -/
theorem gains_put (entry : DiskEntry) (hdir : d.item? place = some .directory)
    (hfree : d.item? (place ++ [name]) = none)
    (hentry : ∀ rest, rest ≠ [] → entry.at? rest = none) :
    d.Gains (d.put entry (place ++ [name])) place fun r item => r = [name] ∧ item = entry.item := by
  refine ⟨rfl, rfl, fun q item => ?_⟩
  rw [item?_put hdir (by simp [hfree]) hentry]
  split_ifs with hq
  · subst hq
    simp [hfree, eq_comm]
  · rw [or_iff_left]
    rintro ⟨_, rfl, rfl, -⟩
    exact hq rfl

/-- What a list of writes comes to: it fails over a name that is there already if there is a clash,
and otherwise puts onto the disk what is shown below a place. -/
structure WritesOut (d : Disk) (ws : List DiskWrite) (place : List String) (clash : Prop)
    (shows : List String → DiskItem → Prop) : Prop where
  fails : clash → ∃ d', d.writeAll ws = (d', some .alreadyExists)
  succeeds : ¬ clash → ∃ d', d.writeAll ws = (d', none) ∧ d.Gains d' place shows

theorem WritesOut.congr (h : d.WritesOut ws place clash shows) (hclash : clash ↔ clash')
    (hshows : ∀ r item, shows r item ↔ shows' r item) : d.WritesOut ws place clash' shows' := by
  refine ⟨fun hc => h.fails (hclash.2 hc), fun hc => ?_⟩
  obtain ⟨d', hwrite, hgains⟩ := h.succeeds fun h => hc (hclash.1 h)
  exact ⟨d', hwrite, hgains.congr hshows⟩

theorem writeAll_cons {w : DiskWrite} (h : d.write w = (d', none)) (ws : List DiskWrite) :
    d.writeAll (w :: ws) = d'.writeAll ws := by
  rw [writeAll, h]

theorem writeAll_append (ws ws' : List DiskWrite) (d : Disk) : d.writeAll (ws ++ ws') =
    match d.writeAll ws with
    | (d', none) => d'.writeAll ws'
    | failed => failed := by
  induction ws generalizing d with
  | nil => rfl
  | cons w ws ih =>
    rw [List.cons_append, writeAll, writeAll]
    rcases d.write w with ⟨d', _ | fault⟩
    · exact ih d'
    · rfl

/-- Writes after writes. -/
theorem WritesOut.append (h : d.WritesOut ws place clash shows)
    (h' : ∀ d', d.Gains d' place shows → d'.WritesOut ws' place clash' shows') :
    d.WritesOut (ws ++ ws') place (clash ∨ clash') fun r item => shows r item ∨ shows' r item := by
  by_cases hclash : clash
  · obtain ⟨d', hwrite⟩ := h.fails hclash
    refine ⟨fun _ => ⟨d', ?_⟩, fun hnot => absurd (.inl hclash) hnot⟩
    rw [writeAll_append, hwrite]
  · obtain ⟨d', hwrite, hgains⟩ := h.succeeds hclash
    have hrest := h' d' hgains
    rw [or_iff_right hclash]
    refine ⟨fun hc => ?_, fun hc => ?_⟩
    · obtain ⟨d'', hwrite'⟩ := hrest.fails hc
      exact ⟨d'', by rw [writeAll_append, hwrite]; exact hwrite'⟩
    · obtain ⟨d'', hwrite', hgains'⟩ := hrest.succeeds hc
      exact ⟨d'', by rw [writeAll_append, hwrite]; exact hwrite', hgains.trans hgains'⟩

end Disk

/-! ## What a tree stands for -/

namespace HistogramTree

variable {ν : Type}

/-- What holds of a directory if it holds of all directories in it holds of every tree. -/
theorem inductionOn {motive : HistogramTree ν → Prop} (t : HistogramTree ν)
    (node : ∀ dirs histograms, (∀ e ∈ dirs, motive e.2) → motive (.node dirs histograms)) :
    motive t := by
  refine @HistogramTree.rec ν motive (fun l => ∀ e ∈ l, motive e.2) (fun e => motive e.2)
    node ?_ ?_ ?_ t
  · simp
  · intro e l he hl
    exact List.forall_mem_cons.2 ⟨he, hl⟩
  · exact fun _ _ ht => ht

/-- The place of the file of a histogram, below the root of its tree. -/
def filePlace (path : List String) (name : String) : List String :=
  path ++ [name ++ ".json"]

/-- No two histograms have one file. -/
theorem filePlace_inj {path path' : List String} {name name' : String} :
    filePlace path name = filePlace path' name' ↔ path = path' ∧ name = name' := by
  refine ⟨fun h => ?_, fun ⟨hpath, hname⟩ => by rw [hpath, hname]⟩
  obtain ⟨hpath, hname⟩ := List.append_inj' h rfl
  refine ⟨hpath, String.ext ?_⟩
  have := congrArg String.toList (List.cons.inj hname).1
  rw [String.toList_append, String.toList_append] at this
  exact List.append_cancel_right this

/-- Does the file of a histogram have the place of a directory? -/
def Collides (t : HistogramTree ν) : Prop :=
  ∃ path name, (t.get? path name).isSome = true ∧ (t.dir? (filePlace path name)).isSome = true

/-- What a tree stands for on a disk, place by place below its root. -/
def Shows (t : HistogramTree Float) (r : List String) : DiskItem → Prop
  | .directory => (t.dir? r).isSome = true
  | .file text => ∃ path name h,
      t.get? path name = some h ∧ r = filePlace path name ∧ text = h.toJson.pretty

/-- A histogram in a tree is in its root or in one of its directories. -/
theorem get?_eq_some_iff {t : HistogramTree ν} (ht : t.Tidy) {path : List String} {name : String}
    {h : Spectrum ν} : t.get? path name = some h ↔ (path = [] ∧ (name, h) ∈ t.histograms) ∨
      ∃ e ∈ t.dirs, ∃ rest, path = e.1 :: rest ∧ e.2.get? rest name = some h := by
  cases path with
  | nil =>
    rw [get?_nil]
    simpa using ⟨mem_of_lookup_eq_some, lookup_eq_some_of_mem ht.histograms⟩
  | cons segment path =>
    rw [get?_cons, Option.bind_eq_some_iff]
    constructor
    · rintro ⟨d, hd, hget⟩
      exact .inr ⟨(segment, d), mem_of_lookup_eq_some hd, path, rfl, hget⟩
    · rintro (⟨hnil, -⟩ | ⟨⟨_, d⟩, hd, rest, heq, hget⟩)
      · cases hnil
      · cases heq
        exact ⟨d, lookup_eq_some_of_mem ht.dirs hd, hget⟩

/-- A directory in a tree is its root or in one of its directories. -/
theorem isSome_dir?_iff {t : HistogramTree ν} (ht : t.Tidy) {path : List String} :
    (t.dir? path).isSome = true ↔ path = [] ∨
      ∃ e ∈ t.dirs, ∃ rest, path = e.1 :: rest ∧ (e.2.dir? rest).isSome = true := by
  cases path with
  | nil => simp [dir?_nil]
  | cons segment path =>
    rw [dir?_cons, or_iff_right (List.cons_ne_nil segment path)]
    constructor
    · intro h
      obtain ⟨d, hd⟩ := Option.isSome_iff_exists.1 (Option.isSome_of_isSome_bind h)
      rw [hd, Option.bind_some] at h
      exact ⟨(segment, d), mem_of_lookup_eq_some hd, path, rfl, h⟩
    · rintro ⟨⟨_, d⟩, hd, rest, heq, h⟩
      cases heq
      rwa [lookup_eq_some_of_mem ht.dirs hd, Option.bind_some]

/-- A tree collides in its root, or one of its directories does. -/
theorem collides_iff {t : HistogramTree ν} (ht : t.Tidy) : t.Collides ↔
    ∃ e ∈ t.dirs, (∃ e' ∈ t.histograms, e.1 = e'.1 ++ ".json") ∨ e.2.Collides := by
  constructor
  · rintro ⟨path, name, hget, hdir⟩
    obtain ⟨h, hget⟩ := Option.isSome_iff_exists.1 hget
    rcases (get?_eq_some_iff ht).1 hget with ⟨rfl, hmem⟩ | ⟨e, he, rest, rfl, hrest⟩
    · rcases (isSome_dir?_iff ht).1 hdir with hnil | ⟨e, he, rest, hname, -⟩
      · cases hnil
      · exact ⟨e, he, .inl ⟨(name, h), hmem, (List.cons.inj hname).1.symm⟩⟩
    · refine ⟨e, he, .inr ⟨rest, name, by rw [hrest, Option.isSome_some], ?_⟩⟩
      rwa [filePlace, List.cons_append, dir?_cons, lookup_eq_some_of_mem ht.dirs he,
        Option.bind_some] at hdir
  · rintro ⟨e, he, ⟨e', he', hname⟩ | ⟨path, name, hget, hdir⟩⟩
    · refine ⟨[], e'.1, ?_, (isSome_dir?_iff ht).2 (.inr ⟨e, he, [], ?_, rfl⟩)⟩
      · rw [(get?_eq_some_iff ht).2 (.inl ⟨rfl, he'⟩), Option.isSome_some]
      · rw [hname]
        rfl
    · obtain ⟨h, hget⟩ := Option.isSome_iff_exists.1 hget
      refine ⟨e.1 :: path, name, ?_, (isSome_dir?_iff ht).2 (.inr ⟨e, he, _, rfl, hdir⟩)⟩
      rw [(get?_eq_some_iff ht).2 (.inr ⟨e, he, path, rfl, hget⟩), Option.isSome_some]

/-- What a tree shows is its root, the files in it, and what its directories show. -/
theorem shows_iff {t : HistogramTree Float} (ht : t.Tidy) {r : List String} {item : DiskItem} :
    t.Shows r item ↔ (r = [] ∧ item = .directory) ∨
      (∃ e ∈ t.histograms, r = [e.1 ++ ".json"] ∧ item = .file e.2.toJson.pretty) ∨
      ∃ e ∈ t.dirs, ∃ rest, r = e.1 :: rest ∧ e.2.Shows rest item := by
  cases item with
  | directory => simpa [Shows] using isSome_dir?_iff ht
  | file text =>
    constructor
    · rintro ⟨path, name, h, hget, rfl, rfl⟩
      rcases (get?_eq_some_iff ht).1 hget with ⟨rfl, hmem⟩ | ⟨e, he, rest, rfl, hrest⟩
      · exact .inr (.inl ⟨(name, h), hmem, rfl, rfl⟩)
      · exact .inr (.inr ⟨e, he, filePlace rest name, rfl, rest, name, h, hrest, rfl, rfl⟩)
    · rintro (⟨-, hitem⟩ | ⟨e, he, rfl, hitem⟩ | ⟨e, he, _, rfl, path, name, h, hget, rfl, rfl⟩)
      · cases hitem
      · cases hitem
        exact ⟨[], e.1, e.2, (get?_eq_some_iff ht).2 (.inl ⟨rfl, he⟩), rfl, rfl⟩
      · exact ⟨e.1 :: path, name, h, (get?_eq_some_iff ht).2 (.inr ⟨e, he, path, rfl, hget⟩),
          rfl, rfl⟩

/-! ## Writing a tree -/

section Writing

variable {d : Disk} {p : DiskPath} {place : List String} {name : String}

/-- The name of a file is none that a path may step over. -/
theorem admits_file (hp : d.LeadsTo p place)
    (haccept : d.rules.Accepts (p.child (name ++ ".json"))) :
    d.Admits p place (name ++ ".json") := by
  have hlong : 5 ≤ (name ++ ".json").length := by
    rw [String.length_append]
    exact Nat.le_add_left 5 _
  have hne : ∀ s : String, s.length < 5 → name ++ ".json" ≠ s := by
    rintro s hs rfl
    omega
  exact ⟨hp, hne _ (by decide), hne _ (by decide), hne _ (by decide), haccept⟩

/-- A segment is no name that a path may step over. -/
theorem admits_segment (hp : d.LeadsTo p place) (hname : isSegment name = true)
    (haccept : d.rules.Accepts (p.child name)) : d.Admits p place name := by
  have hne : name ≠ "" ∧ name ≠ "." ∧ name ≠ ".." := by
    refine ⟨?_, ?_, ?_⟩
    all_goals
      rintro rfl
      revert hname
      decide
  exact ⟨hp, hne.1, hne.2.1, hne.2.2, haccept⟩

/-- The files of a directory are written where nothing is. -/
theorem writesOut_files (histograms : List (String × Spectrum Float)) (hp : d.LeadsTo p place)
    (hnames : (histograms.map Prod.fst).Nodup)
    (haccept : ∀ e ∈ histograms, d.rules.Accepts (p.child (e.1 ++ ".json")))
    (hfree : ∀ e ∈ histograms, d.item? (place ++ [e.1 ++ ".json"]) = none) :
    d.WritesOut
      (histograms.map fun (name, h) => .file (p.child (name ++ ".json")) h.toJson.pretty) place
      False fun r item =>
        ∃ e ∈ histograms, r = [e.1 ++ ".json"] ∧ item = .file e.2.toJson.pretty := by
  induction histograms generalizing d with
  | nil => exact ⟨False.elim, fun _ => ⟨d, rfl, (Disk.gains_nothing d place).congr (by simp)⟩⟩
  | cons e histograms ih =>
    obtain ⟨hfirst, hrest⟩ := List.nodup_cons.1 hnames
    obtain ⟨hacceptFirst, hacceptRest⟩ := List.forall_mem_cons.1 haccept
    obtain ⟨hfreeFirst, hfreeRest⟩ := List.forall_mem_cons.1 hfree
    have hwrite := (admits_file hp hacceptFirst).write_file (by simp [hfreeFirst])
      e.2.toJson.pretty
    have hgains := Disk.gains_put (.file e.2.toJson.pretty) hp.directory hfreeFirst
      fun _ => DiskEntry.at?_file e.2.toJson.pretty
    have hone : d.WritesOut [.file (p.child (e.1 ++ ".json")) e.2.toJson.pretty] place False
        fun r item => r = [e.1 ++ ".json"] ∧ item = .file e.2.toJson.pretty :=
      ⟨False.elim, fun _ => ⟨_, Disk.writeAll_cons hwrite [], hgains⟩⟩
    refine (hone.append fun d' hgains => ih (hgains.extends.leadsTo hp) hrest ?_ ?_).congr ?_ ?_
    · rwa [hgains.rules]
    · intro e' he'
      rw [hgains.item?_eq, hfreeRest e' he']
      rintro item ⟨hname, -⟩
      have heq := filePlace_inj.1 (show filePlace [] e'.1 = filePlace [] e.1 from hname)
      exact hfirst (heq.2 ▸ List.mem_map_of_mem he')
    · simp
    · simp

/-- May a tree be written out at every free place, up to its collisions? -/
def IsWrittenOut (t : HistogramTree Float) : Prop :=
  ∀ (d : Disk) p place, d.LeadsTo p place → (∀ r, r ≠ [] → d.item? (place ++ r) = none) →
    (∀ w ∈ t.writes p, d.rules.Accepts w.path) →
      d.WritesOut (t.writes p) place t.Collides t.Shows

theorem exists_writes_eq (t : HistogramTree Float) (p : DiskPath) :
    ∃ rest, t.writes p = .directory p :: rest := by
  cases t with
  | node dirs histograms => exact ⟨_, rfl⟩

/-- A directory that is made at a free place is all that is gained.  Its path leads to it, and there
is nothing in it. -/
theorem exists_write_directory (hadmits : d.Admits p place name)
    (hfree : d.item? (place ++ [name]) = none) :
    ∃ d', d.write (.directory (p.child name)) = (d', none) ∧
      d.Gains d' place (fun r item => r = [name] ∧ item = .directory) ∧
      d'.LeadsTo (p.child name) (place ++ [name]) ∧
      ∀ r, r ≠ [] → d'.item? (place ++ [name] ++ r) = none := by
  have hgains := Disk.gains_put (.directory []) hadmits.leadsTo.directory hfree
    fun _ => DiskEntry.at?_empty
  refine ⟨_, hadmits.write_directory hfree, hgains, ?_, fun r hr => ?_⟩
  · have hdir : (d.put (.directory []) (place ++ [name])).item? (place ++ [name]) =
        some .directory := (hgains.items _ _).2 (.inr ⟨[name], rfl, rfl, rfl⟩)
    exact (hgains.extends.admits hadmits).child hdir
  · rw [List.append_assoc, hgains.item?_eq, ← List.append_assoc,
      Disk.item?_below (by simp [hfree]) hr]
    rintro item ⟨hname, -⟩
    exact hr (List.cons.inj hname).2

/-- A directory is written into another one, unless its name is the name of a file there. -/
theorem writesOut_child {t : HistogramTree Float} (ht : t.IsWrittenOut)
    (hadmits : d.Admits p place name) (hnot : d.item? (place ++ [name]) ≠ some .directory)
    (haccept : ∀ w ∈ t.writes (p.child name), d.rules.Accepts w.path) :
    d.WritesOut (t.writes (p.child name)) place
      ((d.item? (place ++ [name])).isSome = true ∨ t.Collides)
      fun r item => ∃ rest, r = name :: rest ∧ t.Shows rest item := by
  obtain ⟨rest, hrest⟩ := exists_writes_eq t (p.child name)
  rcases hitem : d.item? (place ++ [name]) with _ | (text | _)
  · obtain ⟨d₁, hmade, hgains, hp, hempty⟩ := exists_write_directory hadmits hitem
    have hout := ht d₁ (p.child name) (place ++ [name]) hp hempty (hgains.rules ▸ haccept)
    -- the directory is made once more, as the root of what is written below
    have hsame : d.writeAll (t.writes (p.child name)) = d₁.writeAll (t.writes (p.child name)) := by
      rw [hrest, Disk.writeAll_cons hmade, Disk.writeAll_cons (hp.write_directory ?_)]
      rw [hgains.rules]
      exact hadmits.accepts
    constructor
    · rintro (hsome | hcollides)
      · cases hsome
      · rw [hsame]
        exact hout.fails hcollides
    · intro hnone
      obtain ⟨d₂, hwrite, hgains'⟩ := hout.succeeds fun hcollides => hnone (.inr hcollides)
      refine ⟨d₂, hsame.trans hwrite, (hgains.trans hgains'.below).congr fun r item => ?_⟩
      refine or_iff_right_of_imp ?_
      rintro ⟨rfl, rfl⟩
      exact ⟨[], rfl, rfl⟩
  · refine ⟨fun _ => ⟨d, ?_⟩, fun hnone => absurd (.inl rfl) hnone⟩
    rw [hrest, Disk.writeAll, hadmits.write_directory_over_file hitem]
  · exact absurd hitem hnot

/-- The directories in a directory are written out where no directory is. -/
theorem writesOut_below (dirs : List (String × HistogramTree Float)) (hp : d.LeadsTo p place)
    (hout : ∀ e ∈ dirs, e.2.IsWrittenOut) (hnames : (dirs.map Prod.fst).Nodup)
    (hsegments : ∀ e ∈ dirs, isSegment e.1 = true)
    (haccept : ∀ w ∈ writesBelow p dirs, d.rules.Accepts w.path)
    (hnot : ∀ e ∈ dirs, d.item? (place ++ [e.1]) ≠ some .directory) :
    d.WritesOut (writesBelow p dirs) place
      (∃ e ∈ dirs, (d.item? (place ++ [e.1])).isSome = true ∨ e.2.Collides)
      fun r item => ∃ e ∈ dirs, ∃ rest, r = e.1 :: rest ∧ e.2.Shows rest item := by
  induction dirs generalizing d with
  | nil =>
    refine ⟨fun hclash => ?_, fun _ => ⟨d, rfl, (Disk.gains_nothing d place).congr (by simp)⟩⟩
    obtain ⟨e, he, -⟩ := hclash
    cases he
  | cons e dirs ih =>
    obtain ⟨houtFirst, houtRest⟩ := List.forall_mem_cons.1 hout
    obtain ⟨hfirst, hrest⟩ := List.nodup_cons.1 hnames
    obtain ⟨hsegment, hsegmentsRest⟩ := List.forall_mem_cons.1 hsegments
    obtain ⟨hnotFirst, hnotRest⟩ := List.forall_mem_cons.1 hnot
    obtain ⟨hacceptFirst, hacceptRest⟩ := List.forall_mem_append.1 haccept
    have hadmits : d.Admits p place e.1 := by
      obtain ⟨rest, hwrites⟩ := exists_writes_eq e.2 (p.child e.1)
      exact admits_segment hp hsegment
        (hacceptFirst (.directory (p.child e.1)) (hwrites ▸ List.mem_cons_self))
    have hone := writesOut_child houtFirst hadmits hnotFirst hacceptFirst
    have hothers : ∀ d', d.Gains d' place
        (fun r item => ∃ rest, r = e.1 :: rest ∧ e.2.Shows rest item) →
          d'.WritesOut (writesBelow p dirs) place
            (∃ e' ∈ dirs, (d.item? (place ++ [e'.1])).isSome = true ∨ e'.2.Collides)
            fun r item => ∃ e' ∈ dirs, ∃ rest, r = e'.1 :: rest ∧ e'.2.Shows rest item := by
      intro d' hgains
      -- the first directory stands under another name than these
      have hsame : ∀ e' ∈ dirs, d'.item? (place ++ [e'.1]) = d.item? (place ++ [e'.1]) := by
        intro e' he'
        refine hgains.item?_eq ?_
        rintro item ⟨rest, hname, -⟩
        exact hfirst ((List.cons.inj hname).1 ▸ List.mem_map_of_mem he')
      refine (ih (hgains.extends.leadsTo hp) houtRest hrest hsegmentsRest
        (hgains.rules ▸ hacceptRest) fun e' he' => ?_).congr ?_ fun _ _ => Iff.rfl
      · rw [hsame e' he']
        exact hnotRest e' he'
      · refine exists_congr fun e' => and_congr_right fun he' => ?_
        rw [hsame e' he']
    exact (hone.append hothers).congr (by simp) (by simp)

section Node

variable {dirs : List (String × HistogramTree Float)} {histograms : List (String × Spectrum Float)}

/-- After its files were written the directories of a tree are written out, unless it collides. -/
theorem writesOut_dirs {d' : Disk} (ht : (node dirs histograms).Tidy) (hp : d.LeadsTo p place)
    (hempty : ∀ r, r ≠ [] → d.item? (place ++ r) = none)
    (hbelow : ∀ e ∈ dirs, e.2.IsWrittenOut)
    (haccept : ∀ w ∈ writesBelow p dirs, d.rules.Accepts w.path)
    (hgains : d.Gains d' place fun r item => r = [] ∧ item = .directory ∨
      ∃ e ∈ histograms, r = [e.1 ++ ".json"] ∧ item = .file e.2.toJson.pretty) :
    d'.WritesOut (writesBelow p dirs) place (node dirs histograms).Collides
      fun r item => ∃ e ∈ dirs, ∃ rest, r = e.1 :: rest ∧ e.2.Shows rest item := by
  have hitem : ∀ name item, d'.item? (place ++ [name]) = some item ↔
      ∃ e ∈ histograms, name = e.1 ++ ".json" ∧ item = .file e.2.toJson.pretty := by
    intro name item
    rw [hgains.items, hempty _ (by simp)]
    simp
  refine (writesOut_below dirs (hgains.extends.leadsTo hp) hbelow (ht.dirs.imp ne_of_lt)
    ht.segments (hgains.rules ▸ haccept) fun e he hdir => ?_).congr ?_ fun _ _ => Iff.rfl
  · obtain ⟨e', -, -, hfile⟩ := (hitem e.1 _).1 hdir
    cases hfile
  · rw [collides_iff ht]
    refine exists_congr fun e => and_congr_right fun _ => or_congr_left ?_
    rw [Option.isSome_iff_exists]
    constructor
    · rintro ⟨item, hsome⟩
      obtain ⟨e', he', hname, -⟩ := (hitem e.1 item).1 hsome
      exact ⟨e', he', hname⟩
    · rintro ⟨e', he', hname⟩
      exact ⟨_, (hitem e.1 _).2 ⟨e', he', hname, rfl⟩⟩

/-- A tree is written out if its directories are. -/
theorem isWrittenOut_node (ht : (node dirs histograms).Tidy)
    (hbelow : ∀ e ∈ dirs, e.2.IsWrittenOut) : (node dirs histograms).IsWrittenOut := by
  intro d p place hp hempty haccept
  have hwrites : (node dirs histograms).writes p = ([.directory p] ++
      histograms.map fun (name, h) => .file (p.child (name ++ ".json")) h.toJson.pretty) ++
        writesBelow p dirs := rfl
  rw [hwrites] at haccept ⊢
  obtain ⟨hacceptNode, hacceptBelow⟩ := List.forall_mem_append.1 haccept
  obtain ⟨hacceptRoot, hacceptFiles⟩ := List.forall_mem_append.1 hacceptNode
  have hroot : d.WritesOut [.directory p] place False fun r item => r = [] ∧ item = .directory :=
    have hwrite := hp.write_directory (hacceptRoot (.directory p) List.mem_cons_self)
    ⟨False.elim, fun _ => ⟨d, Disk.writeAll_cons hwrite [], Disk.gains_self hp.directory⟩⟩
  have hfiles : ∀ d₁, d.Gains d₁ place (fun r item => r = [] ∧ item = .directory) →
      d₁.WritesOut
        (histograms.map fun (name, h) => .file (p.child (name ++ ".json")) h.toJson.pretty) place
        False fun r item =>
          ∃ e ∈ histograms, r = [e.1 ++ ".json"] ∧ item = .file e.2.toJson.pretty := by
    intro d₁ hgains
    refine writesOut_files histograms (hgains.extends.leadsTo hp) (ht.histograms.imp ne_of_lt)
      (fun e he => ?_) fun e he => ?_
    · rw [hgains.rules]
      exact hacceptFiles _ (List.mem_map_of_mem he)
    · rw [hgains.item?_eq (by simp), hempty _ (by simp)]
  refine ((hroot.append hfiles).append fun d₂ hgains =>
    writesOut_dirs ht hp hempty hbelow hacceptBelow hgains).congr (by simp) fun r item => ?_
  rw [shows_iff ht, or_assoc]
  rfl

end Node

theorem WellFormed.isWrittenOut {t : HistogramTree Float} (ht : t.WellFormed) :
    t.IsWrittenOut := by
  induction t using inductionOn with
  | node dirs histograms ih =>
    exact isWrittenOut_node ht.tidy fun e he => ih e he (ht.of_mem he)

/-- A tree that calls have made is written into an empty directory of a disk that takes its names
and paths.  If no file of a histogram has the place of a directory, nothing fails, and the disk
gains the directories of the tree and one file for each histogram with its text, in its directory
and under its name with `.json`; no file is that of two histograms.  If there is such a file, its
directory cannot be made any more, and the writing ends with a fault. -/
theorem writeAll_built (calls : List (Call Float)) {d : Disk} {p : DiskPath} {place : List String}
    (hp : d.LeadsTo p place) (hempty : ∀ r, r ≠ [] → d.item? (place ++ r) = none)
    (haccept : ∀ w ∈ (built calls).writes p, d.rules.Accepts w.path) :
    (¬ (built calls).Collides →
      ∃ d', d.writeAll ((built calls).writes p) = (d', none) ∧
        d.Gains d' place (built calls).Shows ∧
        ∀ r text, (built calls).Shows r (.file text) →
          ∃! key : List String × String, ∃ h, (built calls).get? key.1 key.2 = some h ∧
            r = filePlace key.1 key.2 ∧ text = h.toJson.pretty) ∧
    ((built calls).Collides →
      ∃ d', d.writeAll ((built calls).writes p) = (d', some .alreadyExists)) := by
  have hout := (wellFormed_built calls).isWrittenOut d p place hp hempty haccept
  refine ⟨fun hnot => ?_, hout.fails⟩
  obtain ⟨d', hwrite, hgains⟩ := hout.succeeds hnot
  refine ⟨d', hwrite, hgains, ?_⟩
  rintro r text ⟨path, name, h, hget, rfl, rfl⟩
  refine ⟨(path, name), ⟨h, hget, rfl, rfl⟩, ?_⟩
  rintro ⟨path', name'⟩ ⟨h', -, hplace, -⟩
  obtain ⟨hpath, hname⟩ := filePlace_inj.1 hplace
  rw [hpath, hname]

end Writing

section Examples

/-- A path to an empty directory. -/
theorem leadsTo_work : (Disk.empty ["work"]).LeadsTo ⟨true, ["work"]⟩ ["work"] :=
  ⟨rfl, rfl⟩

theorem item?_work (r : List String) (hr : r ≠ []) :
    (Disk.empty ["work"]).item? (["work"] ++ r) = none := by
  cases r with
  | nil => exact absurd rfl hr
  | cons name r => rfl

theorem accepts_of_paths {ws : List DiskWrite} {rules : DiskRules} (paths : List DiskPath)
    (hpaths : ws.map DiskWrite.path = paths) (haccept : ∀ q ∈ paths, rules.Accepts q) :
    ∀ w ∈ ws, rules.Accepts w.path :=
  fun w hw => haccept w.path (hpaths ▸ List.mem_map_of_mem hw)

/-- A histogram in one directory, and an empty directory beside it. -/
theorem writeAll_built_at_work : ∃ d',
    (Disk.empty ["work"]).writeAll ((built
      [.insert ["SR"] (Spectrum.make "x" "x" 1 0 1), .makeDir ["CR"]]).writes ⟨true, ["work"]⟩) =
        (d', none) ∧
    d'.item? ["work", "CR"] = some .directory ∧
    d'.item? ["work", "SR", "x.json"] =
      some (.file (Spectrum.make "x" "x" 1 0 1 : Spectrum Float).toJson.pretty) := by
  set calls : List (Call Float) := [.insert ["SR"] (Spectrum.make "x" "x" 1 0 1), .makeDir ["CR"]]
    with hcalls
  have hbuilt : built calls = .node [("CR", .node [] []),
      ("SR", .node [] [("x", Spectrum.make "x" "x" 1 0 1)])] [] := rfl
  have haccept : ∀ w ∈ (built calls).writes ⟨true, ["work"]⟩,
      (Disk.empty ["work"]).rules.Accepts w.path := by
    refine accepts_of_paths [⟨true, ["work"]⟩, ⟨true, ["work", "CR"]⟩,
      ⟨true, ["work", "SR"]⟩, ⟨true, ["work", "SR", "x.json"]⟩] rfl ?_
    unfold DiskRules.Accepts
    decide +kernel
  have hnot : ¬ (built calls).Collides := by
    have hwf := wellFormed_built calls
    rw [collides_iff hwf.tidy]
    rintro ⟨e, he, ⟨e', he', -⟩ | hcollides⟩
    · rw [hbuilt] at he'
      cases he'
    · obtain ⟨e', he', -⟩ := (collides_iff (hwf.of_mem he).tidy).1 hcollides
      rw [hbuilt] at he
      rcases List.mem_cons.1 he with rfl | he
      · cases he'
      · rw [List.mem_singleton.1 he] at he'
        cases he'
  obtain ⟨d', hwrite, hgains, -⟩ := (writeAll_built calls leadsTo_work item?_work haccept).1 hnot
  refine ⟨d', hwrite, ?_, ?_⟩
  · exact (hgains.items _ _).2 (.inr ⟨["CR"], rfl, rfl⟩)
  · exact (hgains.items _ _).2 (.inr ⟨["SR", "x.json"], rfl, ["SR"], "x", _, rfl, rfl, rfl⟩)

/-- The file of the histogram `a` stands where the directory `a.json` should be made. -/
theorem directory_in_place_of_file : ∃ d',
    (Disk.empty ["work"]).writeAll ((built
      [.insert [] (Spectrum.make "a" "a" 1 0 1), .makeDir ["a.json"]]).writes ⟨true, ["work"]⟩) =
        (d', some .alreadyExists) := by
  refine ((wellFormed_built _).isWrittenOut _ _ ["work"] leadsTo_work item?_work ?_).fails
    ⟨[], "a", rfl, rfl⟩
  refine accepts_of_paths [⟨true, ["work"]⟩, ⟨true, ["work", "a.json"]⟩,
    ⟨true, ["work", "a.json"]⟩] rfl ?_
  unfold DiskRules.Accepts
  decide +kernel

end Examples

end HistogramTree

end VariHist
