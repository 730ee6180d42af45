import Mathlib
import VariHist.Proofs.Output.Taken

/-!
# Trees after calls

A tree is made from the empty one by calls that make directories and put histograms into them.  A
call that is refused may leave directories behind.

* `putDir` — a directory in place of the one at a path, with the directories on the way.
* `stateAfter_makeDir`, `insert_cases` — what a call leaves behind, as one such replacement.
* `WellFormed` — the invariant of all trees that calls make: in every directory names are in order,
  they are segments, and a histogram stands under its own name.
-/

namespace VariHist

variable {ν : Type}

/-! ## Entries in order -/

section Entries

variable {β : Type} {key : String} {value : β} {l : List (String × β)}

theorem mem_putInOrder {e : String × β} (h : e ∈ putInOrder key value l) :
    e = (key, value) ∨ e ∈ l := by
  induction l with
  | nil => exact .inl (List.mem_singleton.1 h)
  | cons a l ih =>
    unfold putInOrder at h
    split_ifs at h
    · exact List.mem_cons.1 h
    · exact (List.mem_cons.1 h).imp_right (List.mem_cons_of_mem a)
    · rcases List.mem_cons.1 h with rfl | h
      · exact .inr List.mem_cons_self
      · exact (ih h).imp_right (List.mem_cons_of_mem a)

/-- A value can be put under a key without disturbing the order. -/
theorem pairwise_putInOrder (h : (l.map Prod.fst).Pairwise (· < ·)) :
    ((putInOrder key value l).map Prod.fst).Pairwise (· < ·) := by
  induction l with
  | nil => exact List.pairwise_singleton _ _
  | cons a l ih =>
    obtain ⟨hfirst, hrest⟩ := List.pairwise_cons.1 h
    unfold putInOrder
    split_ifs with hlt heq
    · refine List.pairwise_cons.2 ⟨fun k hk => ?_, h⟩
      rcases List.mem_cons.1 hk with rfl | hk
      · exact hlt
      · exact hlt.trans (hfirst k hk)
    · rw [heq]
      exact h
    · refine List.pairwise_cons.2 ⟨fun k hk => ?_, ih hrest⟩
      obtain ⟨e, he, rfl⟩ := List.mem_map.1 hk
      rcases mem_putInOrder he with rfl | he
      · exact lt_of_le_of_ne (not_lt.1 hlt) (Ne.symm heq)
      · exact hfirst _ (List.mem_map_of_mem he)

theorem lookup_eq_none_of_lt (h : ∀ k ∈ l.map Prod.fst, key < k) : l.lookup key = none := by
  rw [List.lookup_eq_none_iff]
  exact fun e he => bne_iff_ne.2 (h e.1 (List.mem_map_of_mem he)).ne

/-- A value under a free key makes one entry more. -/
theorem length_putInOrder (h : l.lookup key = none) :
    (putInOrder key value l).length = l.length + 1 := by
  induction l with
  | nil => rfl
  | cons a l ih =>
    rw [lookup_cons_ite] at h
    split_ifs at h with hne
    unfold putInOrder
    rw [if_neg hne]
    split_ifs
    · rfl
    · rw [List.length_cons, ih h, List.length_cons]

/-- An entry is found under its key, if the keys are in order. -/
theorem lookup_eq_some_of_mem (h : (l.map Prod.fst).Pairwise (· < ·))
    (hmem : (key, value) ∈ l) : l.lookup key = some value := by
  induction l with
  | nil => cases hmem
  | cons a l ih =>
    obtain ⟨hfirst, hrest⟩ := List.pairwise_cons.1 h
    rw [lookup_cons_ite]
    rcases List.mem_cons.1 hmem with rfl | hmem
    · exact if_pos rfl
    · rw [if_neg (hfirst _ (List.mem_map_of_mem hmem)).ne', ih hrest hmem]

theorem mem_of_lookup_eq_some (h : l.lookup key = some value) : (key, value) ∈ l := by
  obtain ⟨before, after, rfl, -⟩ := List.lookup_eq_some_iff.1 h
  exact List.mem_append_right _ List.mem_cons_self

end Entries

namespace HistogramTree

variable {t d : HistogramTree ν} {path : List String} {name : String} {h : Spectrum ν}

/-! ## Directories at paths -/

theorem dir?_nil (t : HistogramTree ν) : t.dir? [] = some t :=
  rfl

theorem dir?_cons (t : HistogramTree ν) (segment : String) (path : List String) :
    t.dir? (segment :: path) = (t.dirs.lookup segment).bind (dir? path) :=
  rfl

theorem dir?_append (t : HistogramTree ν) (path rest : List String) :
    t.dir? (path ++ rest) = (t.dir? path).bind (dir? rest) := by
  induction path generalizing t with
  | nil => rfl
  | cons segment path ih =>
    rw [List.cons_append, dir?_cons, dir?_cons, Option.bind_assoc]
    exact Option.bind_congr fun d _ => ih d

/-- The directory at a path, empty if there is none. -/
def dirAt (t : HistogramTree ν) (path : List String) : HistogramTree ν :=
  (t.dir? path).getD empty

/-- Puts a directory in place of the one at a path, and makes the directories on the way. -/
def putDir (d : HistogramTree ν) : List String → HistogramTree ν → HistogramTree ν
  | [], _ => d
  | segment :: path, t =>
    .node (putInOrder segment (putDir d path ((t.dirs.lookup segment).getD empty)) t.dirs)
      t.histograms

theorem dirAt_below (t : HistogramTree ν) (segment : String) (path : List String) :
    ((t.dirs.lookup segment).getD empty).dirAt path = t.dirAt (segment :: path) := by
  rw [dirAt, dirAt, dir?_cons]
  cases t.dirs.lookup segment with
  | some d => rfl
  | none =>
    cases path with
    | nil => rfl
    | cons s path => rfl

/-- A directory is changed where the path leads through segments and the change can be made. -/
theorem alterAt_eq_ok_iff {change : HistogramTree ν → Except Error (HistogramTree ν)}
    {t' : HistogramTree ν} : alterAt path change t = .ok () t' ↔
      (∀ s ∈ path, isSegment s = true) ∧
        ∃ d, change (t.dirAt path) = .ok d ∧ t' = putDir d path t := by
  induction path generalizing t t' with
  | nil =>
    unfold alterAt
    refine Step.attempt_eq_ok_iff.trans ?_
    simp [dirAt, putDir, dir?_nil]
  | cons segment path ih =>
    unfold alterAt
    dsimp only
    rw [List.forall_mem_cons, ← dirAt_below]
    split
    · rename_i hsegment
      cases hbelow : alterAt path change ((t.dirs.lookup segment).getD empty) with
      | error e u =>
        refine iff_of_false (by simp) ?_
        rintro ⟨⟨-, hpath⟩, d, hd, -⟩
        rw [ih.2 ⟨hpath, d, hd, rfl⟩] at hbelow
        cases hbelow
      | ok a u =>
        obtain ⟨hpath, d, hd, rfl⟩ := ih.1 hbelow
        have hall : ∀ s ∈ path, isSegment s = true := hpath
        simp only [EStateM.Result.ok.injEq, true_and, hsegment, iff_true_intro hall, hd,
          Except.ok.injEq, exists_eq_left', putDir]
        exact eq_comm
    · rename_i hsegment
      simp [hsegment]

/-- A change that fails leaves what making the directories on the way leaves. -/
theorem stateAfter_of_alterAt_eq_error
    {change : HistogramTree ν → Except Error (HistogramTree ν)} {e : Error}
    {t' : HistogramTree ν} (hstep : alterAt path change t = .error e t') :
    Step.stateAfter (makeDir path) t = t' := by
  induction path generalizing t t' with
  | nil =>
    unfold alterAt at hstep
    rw [(Step.attempt_eq_error_iff.1 hstep).2]
    rfl
  | cons segment path ih =>
    unfold alterAt at hstep
    unfold makeDir Step.stateAfter alterAt
    dsimp only at hstep ⊢
    split at hstep
    · rename_i hsegment
      rw [if_pos hsegment]
      cases hbelow : alterAt path change ((t.dirs.lookup segment).getD empty) with
      | ok a u => rw [hbelow] at hstep; cases hstep
      | error e' u =>
        rw [hbelow] at hstep
        cases hstep
        have hmade := ih hbelow
        unfold Step.stateAfter makeDir at hmade
        cases hdirs : alterAt path .ok ((t.dirs.lookup segment).getD empty) with
        | ok a v => rw [hdirs] at hmade; rw [← hmade]
        | error e'' v => rw [hdirs] at hmade; rw [← hmade]
    · rename_i hsegment
      cases hstep
      rw [if_neg hsegment]

/-- A path is followed as far as it goes through segments, and then its directories are there. -/
theorem stateAfter_makeDir (path : List String) (t : HistogramTree ν) :
    Step.stateAfter (makeDir path) t =
      putDir (t.dirAt (path.takeWhile isSegment)) (path.takeWhile isSegment) t := by
  induction path generalizing t with
  | nil => rfl
  | cons segment path ih =>
    unfold makeDir Step.stateAfter alterAt
    dsimp only
    rw [List.takeWhile_cons]
    split_ifs with hsegment
    · rw [← dirAt_below, putDir, ← ih, Step.stateAfter, makeDir]
      cases alterAt path .ok ((t.dirs.lookup segment).getD empty) with
      | ok a u => rfl
      | error e u => rfl
    · rfl

/-- A histogram is put into the directory at its path, or it is refused: then the directories on the
way have been made, unless its name is no segment. -/
theorem insert_cases (path : List String) (h : Spectrum ν) (t : HistogramTree ν) :
    (isSegment h.name = true ∧ (∀ s ∈ path, isSegment s = true) ∧
      (t.dirAt path).holds h.name = false ∧ insert path h t = .ok ()
        (putDir (.node (t.dirAt path).dirs (putInOrder h.name h (t.dirAt path).histograms))
          path t)) ∨
    ∃ e, insert path h t = .error e
      (if isSegment h.name then Step.stateAfter (makeDir path) t else t) := by
  rw [insert_eq]
  by_cases hname : isSegment h.name = true
  · rw [if_pos hname, if_pos hname]
    cases hstep : alterAt path (enter path h) t with
    | error e t' => exact .inr ⟨e, by rw [stateAfter_of_alterAt_eq_error hstep]⟩
    | ok a t' =>
      obtain ⟨hpath, d, hd, rfl⟩ := alterAt_eq_ok_iff.1 hstep
      unfold enter at hd
      split_ifs at hd with hholds
      cases hd
      exact .inl ⟨hname, hpath, Bool.eq_false_iff.2 hholds, rfl⟩
  · rw [if_neg hname, if_neg hname]
    exact .inr ⟨_, rfl⟩

/-! ## What shows after a directory is put in place -/

/-- Histograms change below the path only. -/
theorem get?_putDir (d : HistogramTree ν) (path p : List String) (n : String)
    (t : HistogramTree ν) : (putDir d path t).get? p n =
      if path <+: p then d.get? (p.drop path.length) n else t.get? p n := by
  induction path generalizing p t with
  | nil => simp [putDir]
  | cons segment path ih =>
    cases p with
    | nil => rw [if_neg (by simp)]; rfl
    | cons segment' p =>
      rw [get?_cons, putDir, dirs, lookup_putInOrder]
      by_cases hs : segment' = segment
      · subst hs
        rw [if_pos rfl, Option.bind_some, ih, get?_below]
        simp
      · rw [if_neg hs, if_neg (by simp [Ne.symm hs]), get?_cons]

theorem dir?_below (t : HistogramTree ν) (segment : String) {path : List String}
    (hpath : path ≠ []) :
    ((t.dirs.lookup segment).getD empty).dir? path = t.dir? (segment :: path) := by
  rw [dir?_cons]
  cases t.dirs.lookup segment with
  | some d => rfl
  | none =>
    cases path with
    | nil => exact absurd rfl hpath
    | cons s path => rfl

/-- If the directories of a directory stay, those of the tree stay, and those on the way are
made. -/
theorem isSome_dir?_putDir {p : List String} (hd : d.dirs = (t.dirAt path).dirs) :
    ((putDir d path t).dir? p).isSome = true ↔ (t.dir? p).isSome = true ∨ p <+: path := by
  induction path generalizing p t with
  | nil =>
    cases p with
    | nil => simp [dir?_nil]
    | cons segment p => rw [putDir, dir?_cons, hd, dir?_cons]; simp [dirAt, dir?_nil]
  | cons segment path ih =>
    rw [← dirAt_below] at hd
    cases p with
    | nil => simp [dir?_nil]
    | cons segment' p =>
      rw [dir?_cons, putDir, dirs, lookup_putInOrder, List.cons_prefix_cons]
      by_cases hs : segment' = segment
      · subst hs
        rw [if_pos rfl, Option.bind_some, ih hd]
        by_cases hp : p = []
        · simp [hp]
        · simp [dir?_below t segment' hp]
      · simp [hs, dir?_cons]

/-! ## The invariant -/

/-- In the directory itself the names are in order and segments, and a histogram stands under its
own name. -/
structure Tidy (t : HistogramTree ν) : Prop where
  dirs : (t.dirs.map Prod.fst).Pairwise (· < ·)
  histograms : (t.histograms.map Prod.fst).Pairwise (· < ·)
  segments : ∀ e ∈ t.dirs, isSegment e.1 = true
  names : ∀ e ∈ t.histograms, isSegment e.1 = true ∧ e.2.name = e.1

/-- Every directory of the tree is tidy. -/
def WellFormed (t : HistogramTree ν) : Prop :=
  ∀ path d, t.dir? path = some d → d.Tidy

theorem WellFormed.empty : (empty : HistogramTree ν).WellFormed := by
  intro path d hd
  cases path with
  | nil =>
    cases hd
    exact ⟨.nil, .nil, by simp [HistogramTree.empty, HistogramTree.dirs],
      by simp [HistogramTree.empty, HistogramTree.histograms]⟩
  | cons segment path => cases hd

theorem WellFormed.tidy (ht : t.WellFormed) : t.Tidy :=
  ht [] t rfl

theorem WellFormed.of_lookup (ht : t.WellFormed) (hd : t.dirs.lookup name = some d) :
    d.WellFormed := fun path e he =>
  ht (name :: path) e (by rw [dir?_cons, hd, Option.bind_some, he])

theorem WellFormed.of_mem (ht : t.WellFormed) (hd : (name, d) ∈ t.dirs) : d.WellFormed :=
  ht.of_lookup (lookup_eq_some_of_mem ht.tidy.dirs hd)

theorem WellFormed.below (ht : t.WellFormed) (segment : String) :
    ((t.dirs.lookup segment).getD HistogramTree.empty).WellFormed := by
  cases hd : t.dirs.lookup segment with
  | none => exact .empty
  | some d => exact ht.of_lookup hd

theorem WellFormed.dirAt (ht : t.WellFormed) (path : List String) : (t.dirAt path).WellFormed := by
  induction path generalizing t with
  | nil => exact ht
  | cons segment path ih =>
    rw [← dirAt_below]
    exact ih (ht.below segment)

/-- A well-formed directory may be put in place. -/
theorem WellFormed.putDir (ht : t.WellFormed) (hd : d.WellFormed)
    (hpath : ∀ s ∈ path, isSegment s = true) : (putDir d path t).WellFormed := by
  induction path generalizing t with
  | nil => exact hd
  | cons segment path ih =>
    obtain ⟨hsegment, hrest⟩ := List.forall_mem_cons.1 hpath
    have hbelow := ih (ht.below segment) hrest
    intro p e he
    cases p with
    | nil =>
      cases he
      refine ⟨pairwise_putInOrder ht.tidy.dirs, ht.tidy.histograms, fun e he => ?_, ht.tidy.names⟩
      rcases mem_putInOrder he with rfl | he
      · exact hsegment
      · exact ht.tidy.segments e he
    | cons segment' p =>
      rw [dir?_cons, HistogramTree.putDir, HistogramTree.dirs, lookup_putInOrder] at he
      split_ifs at he
      · exact hbelow p e he
      · exact ht (segment' :: p) e he

/-- A histogram may be put into a well-formed directory under its name. -/
theorem WellFormed.hold (ht : t.WellFormed) (hname : isSegment h.name = true) :
    (node t.dirs (putInOrder h.name h t.histograms)).WellFormed := by
  intro path d hd
  cases path with
  | nil =>
    cases hd
    refine ⟨ht.tidy.dirs, pairwise_putInOrder ht.tidy.histograms, ht.tidy.segments, fun e he => ?_⟩
    rcases mem_putInOrder he with rfl | he
    · exact ⟨hname, rfl⟩
    · exact ht.tidy.names e he
  | cons segment path => exact ht (segment :: path) d hd

/-! ## Calls -/

/-- A call that changes a tree. -/
inductive Call (ν : Type) where
  | makeDir (path : List String)
  | insert (path : List String) (h : Spectrum ν)

namespace Call

/-- What a call leaves behind, whether it succeeds or not. -/
def carryOut (t : HistogramTree ν) : Call ν → HistogramTree ν
  | makeDir path => Step.stateAfter (HistogramTree.makeDir path) t
  | insert path h => Step.stateAfter (HistogramTree.insert path h) t

/-- The directory that a call gets to, making those on the way. -/
def reach : Call ν → List String
  | makeDir path => path.takeWhile isSegment
  | insert path h => if isSegment h.name then path.takeWhile isSegment else []

end Call

/-- The tree that calls make, one after another. -/
def built (calls : List (Call ν)) : HistogramTree ν :=
  calls.foldl Call.carryOut empty

theorem built_concat (calls : List (Call ν)) (c : Call ν) :
    built (calls ++ [c]) = c.carryOut (built calls) := by
  rw [built, List.foldl_append]
  rfl

theorem all_takeWhile (path : List String) : ∀ s ∈ path.takeWhile isSegment, isSegment s = true :=
  fun _ hs => List.mem_takeWhile_imp hs

theorem takeWhile_of_all (hpath : ∀ s ∈ path, isSegment s = true) :
    path.takeWhile isSegment = path :=
  List.takeWhile_eq_self_iff.2 hpath

theorem WellFormed.makeDir (ht : t.WellFormed) (path : List String) :
    (Step.stateAfter (HistogramTree.makeDir path) t).WellFormed := by
  rw [stateAfter_makeDir]
  exact ht.putDir (ht.dirAt _) (all_takeWhile path)

/-- Every call keeps a tree well formed. -/
theorem WellFormed.carryOut (ht : t.WellFormed) (c : Call ν) : (c.carryOut t).WellFormed := by
  cases c with
  | makeDir path => exact ht.makeDir path
  | insert path h =>
    show (Step.stateAfter (HistogramTree.insert path h) t).WellFormed
    rcases insert_cases path h t with ⟨hname, hpath, -, hstep⟩ | ⟨e, hstep⟩
    · rw [Step.stateAfter_of_eq_ok hstep]
      exact ht.putDir ((ht.dirAt path).hold hname) hpath
    · rw [Step.stateAfter_of_eq_error hstep]
      split_ifs
      · exact ht.makeDir path
      · exact ht

/-- Every tree that calls make is well formed. -/
theorem wellFormed_built (calls : List (Call ν)) : (built calls).WellFormed := by
  induction calls using List.reverseRecOn with
  | nil => exact .empty
  | append_singleton calls c ih =>
    rw [built_concat]
    exact ih.carryOut c

end HistogramTree

end VariHist
