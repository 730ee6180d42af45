import Mathlib
import VariHist.Proofs.Output.Tree
import VariHist.Proofs.Step

/-!
# Places that are taken

A spectrum that is put into a tree takes its own place, and the place of every directory on the way
to it.  It can be refused for three reasons: its name is no segment, one of its directories is not,
or its place is taken.

* `Rejects` — the fault with which a place is refused, by whether it is taken.
* `insert_eq_error`, `insert_eq_ok` — a spectrum is put into a tree if and only if nothing rejects
  it.
* `isTaken_insertAll` — the places that several spectra take.
-/

namespace VariHist

/-- The places that a spectrum under a key takes: its own, and those of the directories on the way
to it. -/
def OutputKey.Takes (key place : OutputKey) : Prop :=
  place = key ∨ place.path ++ [place.leaf] <+: key.path

/-- Why a spectrum cannot be put under a key, `taken` telling whether the place is. -/
inductive Rejects (key : OutputKey) (taken : Prop) : ConfigFault → Prop where
  | leaf : isSegment key.leaf = false → Rejects key taken (.badSegment key.leaf)
  | directory {segment : String} : isSegment key.leaf = true →
      key.path.find? (fun s => !isSegment s) = some segment →
      Rejects key taken (.badSegment segment)
  | taken : isSegment key.leaf = true → (∀ s ∈ key.path, isSegment s = true) → taken →
      Rejects key taken (.entryTaken key.leaf key.path)

theorem Rejects.imp {key : OutputKey} {taken taken' : Prop} {f : ConfigFault}
    (h : Rejects key taken f) (himp : taken → taken') : Rejects key taken' f := by
  cases h with
  | leaf hleaf => exact .leaf hleaf
  | directory hleaf hfind => exact .directory hleaf hfind
  | taken hleaf hpath ht => exact .taken hleaf hpath (himp ht)

/-- Nothing rejects a place that is free and made of segments. -/
theorem not_rejects_iff {key : OutputKey} {taken : Prop} :
    (∀ f, ¬ Rejects key taken f) ↔
      isSegment key.leaf = true ∧ (∀ s ∈ key.path, isSegment s = true) ∧ ¬ taken := by
  constructor
  · intro hnone
    have hleaf : isSegment key.leaf = true := by
      by_contra hbad
      exact hnone _ (.leaf (Bool.eq_false_iff.2 hbad))
    have hpath : ∀ s ∈ key.path, isSegment s = true := by
      cases hfind : key.path.find? (fun s => !isSegment s) with
      | some segment => exact absurd (.directory hleaf hfind) (hnone _)
      | none => simpa using hfind
    exact ⟨hleaf, hpath, fun ht => hnone _ (.taken hleaf hpath ht)⟩
  · rintro ⟨hleaf, hpath, hfree⟩ f hf
    cases hf with
    | leaf hbad =>
      rw [hleaf] at hbad
      cases hbad
    | directory _ hfind =>
      have hbad := List.find?_some hfind
      rw [hpath _ (List.mem_of_find?_eq_some hfind)] at hbad
      cases hbad
    | taken _ _ ht => exact hfree ht

namespace HistogramTree

variable {ν : Type} {t t' : HistogramTree ν} {path : List String} {h : Spectrum ν}

theorem isTaken_nil (t : HistogramTree ν) (name : String) : t.isTaken [] name = t.holds name :=
  rfl

theorem isTaken_cons (t : HistogramTree ν) (segment : String) (path : List String)
    (name : String) : t.isTaken (segment :: path) name =
      (t.dirs.lookup segment).any fun d => d.isTaken path name := by
  rw [isTaken, dir?]
  cases t.dirs.lookup segment with
  | none => rfl
  | some d => rfl

theorem isTaken_empty (path : List String) (name : String) :
    (empty : HistogramTree ν).isTaken path name = false := by
  cases path with
  | nil => rfl
  | cons segment path => rfl

/-- The directory below a segment, empty if there is none. -/
theorem isTaken_below (t : HistogramTree ν) (segment : String) (path : List String)
    (name : String) :
    ((t.dirs.lookup segment).getD empty).isTaken path name = t.isTaken (segment :: path) name := by
  rw [isTaken_cons]
  cases t.dirs.lookup segment with
  | none => exact isTaken_empty path name
  | some d => rfl

/-- The change of a directory into which a histogram is put, `l` being the path in the fault. -/
def enter (l : List String) (h : Spectrum ν) (d : HistogramTree ν) :
    Except Error (HistogramTree ν) :=
  if d.holds h.name then .error (.config (.entryTaken h.name l))
  else .ok (.node d.dirs (putInOrder h.name h d.histograms))

theorem insert_eq (path : List String) (h : Spectrum ν) :
    insert path h = if isSegment h.name then alterAt path (enter path h)
      else throw (.config (.badSegment h.name)) :=
  rfl

theorem isTaken_enter {l : List String} (henter : enter l h t = .ok t') :
    t.holds h.name = false ∧ ∀ place : OutputKey, t'.isTaken place.path place.leaf = true ↔
      t.isTaken place.path place.leaf = true ∨ place = ⟨[], h.name⟩ := by
  unfold enter at henter
  split_ifs at henter with hholds
  cases henter
  refine ⟨Bool.eq_false_iff.2 hholds, ?_⟩
  rintro ⟨p, n⟩
  cases p with
  | nil =>
    rw [isTaken_nil, isTaken_nil, holds, holds, histograms, lookup_putInOrder]
    by_cases hn : n = h.name
    · simp [hn]
    · simp [hn, dirs]
  | cons segment p =>
    rw [isTaken_cons, isTaken_cons]
    simp [dirs]

/-- A histogram takes its place in the directory at a path, and those of the directories on the way
to it.  The induction is on the path. -/
theorem alterAt_eq_ok {l : List String} (hstep : alterAt path (enter l h) t = .ok () t') :
    (∀ s ∈ path, isSegment s = true) ∧ t.isTaken path h.name = false ∧
      ∀ place : OutputKey, t'.isTaken place.path place.leaf = true ↔
        t.isTaken place.path place.leaf = true ∨ (⟨path, h.name⟩ : OutputKey).Takes place := by
  induction path generalizing t t' with
  | nil =>
    unfold alterAt at hstep
    obtain ⟨hfree, htaken⟩ := isTaken_enter (Step.attempt_eq_ok_iff.1 hstep)
    refine ⟨by simp, hfree, fun place => ?_⟩
    rw [htaken, OutputKey.Takes]
    simp
  | cons segment path ih =>
    unfold alterAt at hstep
    dsimp only at hstep
    split at hstep
    · rename_i hsegment
      cases hbelow : alterAt path (enter l h) ((t.dirs.lookup segment).getD empty) with
      | error e d => rw [hbelow] at hstep; cases hstep
      | ok u d =>
        rw [hbelow] at hstep
        cases hstep
        obtain ⟨hpath, hfree, htaken⟩ := ih hbelow
        rw [isTaken_below] at hfree
        refine ⟨List.forall_mem_cons.2 ⟨hsegment, hpath⟩, hfree, ?_⟩
        rintro ⟨p, n⟩
        cases p with
        | nil =>
          rw [isTaken_nil, isTaken_nil, holds, holds, dirs, histograms, lookup_putInOrder]
          by_cases hn : n = segment
          · simp [hn, OutputKey.Takes, dirs]
          · simp [hn, OutputKey.Takes, dirs, histograms]
        | cons segment' p =>
          rw [isTaken_cons, dirs, lookup_putInOrder]
          by_cases hs : segment' = segment
          · subst hs
            have hd := htaken ⟨p, n⟩
            rw [isTaken_below] at hd
            rw [if_pos rfl, Option.any_some, hd]
            simp [OutputKey.Takes]
          · rw [if_neg hs, isTaken_cons]
            simp [hs, OutputKey.Takes]
    · cases hstep

/-- A histogram cannot be put into the directory at a path if the path does not lead there or the
name is taken.  The induction is on the path. -/
theorem alterAt_eq_error {l : List String} {e : Error}
    (hstep : alterAt path (enter l h) t = .error e t') :
    (∃ segment, path.find? (fun s => !isSegment s) = some segment ∧
        e = .config (.badSegment segment)) ∨
      ((∀ s ∈ path, isSegment s = true) ∧ t.isTaken path h.name = true ∧
        e = .config (.entryTaken h.name l)) := by
  induction path generalizing t t' with
  | nil =>
    unfold alterAt at hstep
    obtain ⟨henter, -⟩ := Step.attempt_eq_error_iff.1 hstep
    unfold enter at henter
    split_ifs at henter with hholds
    cases henter
    exact .inr ⟨by simp, hholds, rfl⟩
  | cons segment path ih =>
    unfold alterAt at hstep
    dsimp only at hstep
    split at hstep
    · rename_i hsegment
      cases hbelow : alterAt path (enter l h) ((t.dirs.lookup segment).getD empty) with
      | ok u d => rw [hbelow] at hstep; cases hstep
      | error e' d =>
        rw [hbelow] at hstep
        cases hstep
        rcases ih hbelow with ⟨bad, hfind, he⟩ | ⟨hpath, htaken, he⟩
        · refine .inl ⟨bad, ?_, he⟩
          rw [List.find?_cons_of_neg (by simp [hsegment]), hfind]
        · rw [isTaken_below] at htaken
          exact .inr ⟨List.forall_mem_cons.2 ⟨hsegment, hpath⟩, htaken, he⟩
    · rename_i hsegment
      cases hstep
      exact .inl ⟨segment, List.find?_cons_of_pos (by simp [hsegment]), rfl⟩

/-- A spectrum is refused with the fault that rejects it. -/
theorem insert_eq_error {e : Error} (hstep : insert path h t = .error e t') :
    ∃ f, e = .config f ∧ Rejects ⟨path, h.name⟩ (t.isTaken path h.name = true) f := by
  rw [insert_eq] at hstep
  split at hstep
  · rename_i hname
    rcases alterAt_eq_error hstep with ⟨segment, hfind, rfl⟩ | ⟨hpath, htaken, rfl⟩
    · exact ⟨_, rfl, .directory hname hfind⟩
    · exact ⟨_, rfl, .taken hname hpath htaken⟩
  · rename_i hname
    cases hstep
    exact ⟨_, rfl, .leaf (Bool.eq_false_iff.2 hname)⟩

/-- A spectrum that is put into a tree was not rejected, and takes its places. -/
theorem insert_eq_ok (hstep : insert path h t = .ok () t') :
    (∀ f, ¬ Rejects ⟨path, h.name⟩ (t.isTaken path h.name = true) f) ∧
      ∀ place : OutputKey, t'.isTaken place.path place.leaf = true ↔
        t.isTaken place.path place.leaf = true ∨ (⟨path, h.name⟩ : OutputKey).Takes place := by
  rw [insert_eq] at hstep
  split at hstep
  · rename_i hname
    obtain ⟨hpath, hfree, htaken⟩ := alterAt_eq_ok hstep
    exact ⟨not_rejects_iff.2 ⟨hname, hpath, Bool.eq_false_iff.1 hfree⟩, htaken⟩
  · cases hstep

/-! ## Several spectra -/

variable {spectra : List (OutputKey × Spectrum ν)}

/-- The places that several spectra take. -/
theorem isTaken_insertAll (hnames : ∀ e ∈ spectra, e.2.name = e.1.leaf)
    (hstep : (spectra.forM fun e => insert e.1.path e.2) t = .ok () t') (place : OutputKey) :
    t'.isTaken place.path place.leaf = true ↔
      t.isTaken place.path place.leaf = true ∨ ∃ e ∈ spectra, e.1.Takes place := by
  induction spectra generalizing t with
  | nil =>
    cases hstep
    simp
  | cons e spectra ih =>
    obtain ⟨⟨path, leaf⟩, h⟩ := e
    obtain ⟨hname, hrest⟩ := List.forall_mem_cons.1 hnames
    obtain ⟨⟨⟩, t₁, hfirst, hlater⟩ := Step.bind_eq_ok_iff.1 hstep
    obtain rfl : h.name = leaf := hname
    rw [ih hrest hlater, (insert_eq_ok hfirst).2, List.exists_mem_cons_iff, or_assoc]

end HistogramTree

end VariHist
