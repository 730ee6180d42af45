import Mathlib
import VariHist.Proofs.Output.Insertion

/-!
# Names of two things

A name of a directory clashes if the directory holds both a histogram and a directory of this name.
Putting a histogram into a tree looks for both, and so does not make its name clash; making
directories looks for neither.

* `isSome_dir?_carryOut`, `get?_carryOut` — the directories and the histograms after a call.
* `clashes_carryOut` — the one way in which a call makes a name clash.
* `clashes_built_iff` — so the names that clash are those of histograms over which a directory was
  made later on.
-/

namespace VariHist

namespace HistogramTree

variable {ν : Type} {t : HistogramTree ν} {path : List String} {name : String} {c : Call ν}

/-- Does the directory at a path hold both a histogram and a directory of this name? -/
def Clashes (t : HistogramTree ν) (path : List String) (name : String) : Prop :=
  (t.get? path name).isSome = true ∧ (t.dir? (path ++ [name])).isSome = true

/-- A place is free if neither a histogram nor a directory is there. -/
theorem isTaken_eq_false_iff :
    t.isTaken path name = false ↔ t.get? path name = none ∧ t.dir? (path ++ [name]) = none := by
  rw [isTaken, get?, dir?_append]
  cases t.dir? path with
  | none => simp
  | some d =>
    have hdir : d.dir? [name] = d.dirs.lookup name := Option.bind_fun_some _
    rw [Option.any_some, Option.bind_some, Option.bind_some, hdir, holds, Bool.or_eq_false_iff]
    simp

/-! ## One call -/

/-- After a call there are the directories that were there before, and those on its way. -/
theorem isSome_dir?_carryOut (c : Call ν) (t : HistogramTree ν) (p : List String) :
    ((c.carryOut t).dir? p).isSome = true ↔ (t.dir? p).isSome = true ∨ p <+: c.reach := by
  have hmade : ∀ path, ((Step.stateAfter (makeDir path) t).dir? p).isSome = true ↔
      (t.dir? p).isSome = true ∨ p <+: path.takeWhile isSegment := fun path => by
    rw [stateAfter_makeDir]
    exact isSome_dir?_putDir rfl
  cases c with
  | makeDir path => exact hmade path
  | insert path h =>
    show ((Step.stateAfter (insert path h) t).dir? p).isSome = true ↔ _
    rw [Call.reach]
    rcases insert_cases path h t with ⟨hname, hpath, -, hstep⟩ | ⟨e, hstep⟩
    · rw [Step.stateAfter_of_eq_ok hstep, if_pos hname, takeWhile_of_all hpath]
      exact isSome_dir?_putDir rfl
    · rw [Step.stateAfter_of_eq_error hstep]
      split_ifs
      · exact hmade path
      · rw [List.prefix_nil]
        refine (or_iff_left_of_imp ?_).symm
        rintro rfl
        rfl

/-- A call puts a histogram in a free place, or it changes no lookup. -/
theorem get?_carryOut (c : Call ν) (t : HistogramTree ν) :
    (∀ p n, (c.carryOut t).get? p n = t.get? p n) ∨
    ∃ path h, c = .insert path h ∧ c.reach = path ∧ t.isTaken path h.name = false ∧
      ∀ p n, (c.carryOut t).get? p n = if p = path ∧ n = h.name then some h else t.get? p n := by
  cases c with
  | makeDir path => exact .inl (get?_makeDir path t)
  | insert path h =>
    cases hstep : insert path h t with
    | ok u t' =>
      obtain ⟨hpath, hname, hfree⟩ := exists_insert_iff.1 ⟨t', hstep⟩
      refine .inr ⟨path, h, rfl, ?_, hfree, ?_⟩
      · rw [Call.reach, if_pos hname, takeWhile_of_all hpath]
      · rw [Call.carryOut, Step.stateAfter_of_eq_ok hstep]
        exact (get?_insert hstep).2
    | error e t' =>
      refine .inl ?_
      rw [Call.carryOut, Step.stateAfter_of_eq_error hstep]
      exact get?_of_insert_eq_error hstep

/-- A call makes a name clash only by making a directory over the histogram of this name. -/
theorem clashes_carryOut (c : Call ν) (t : HistogramTree ν) (path : List String) (name : String) :
    (c.carryOut t).Clashes path name ↔ t.Clashes path name ∨
      (t.get? path name).isSome = true ∧ t.dir? (path ++ [name]) = none ∧
        path ++ [name] <+: c.reach := by
  unfold Clashes
  rw [isSome_dir?_carryOut, ← Option.not_isSome_iff_eq_none]
  rcases get?_carryOut c t with hget | ⟨place, h, rfl, hreach, hfree, hget⟩
  · rw [hget]
    tauto
  · rw [hget]
    split_ifs with hplace
    · -- the place was free, and the call goes no further than the directory that it is in
      obtain ⟨rfl, rfl⟩ := hplace
      obtain ⟨hnone, hdir⟩ := isTaken_eq_false_iff.1 hfree
      have hshort : ¬ path ++ [h.name] <+: path := fun hprefix => by
        have := hprefix.length_le
        rw [List.length_append, List.length_singleton] at this
        omega
      rw [hnone, hdir, hreach]
      simp [hshort]
    · tauto

/-! ## All calls -/

/-- A name clashes in a tree that calls have made exactly if one of the calls made a directory of
this name where a histogram of this name was and no directory yet.  So an insertion never makes the
name of its histogram clash, and no name clashes as long as no directory is made over a
histogram. -/
theorem clashes_built_iff (calls : List (Call ν)) (path : List String) (name : String) :
    (built calls).Clashes path name ↔ ∃ before c after, calls = before ++ c :: after ∧
      ((built before).get? path name).isSome = true ∧
      (built before).dir? (path ++ [name]) = none ∧ path ++ [name] <+: c.reach := by
  induction calls using List.reverseRecOn with
  | nil =>
    refine iff_of_false (fun h => ?_) (by simp)
    obtain ⟨hget, -⟩ := h
    rw [show built [] = (empty : HistogramTree ν) from rfl, get?_empty] at hget
    cases hget
  | append_singleton calls c ih =>
    rw [built_concat, clashes_carryOut, ih]
    constructor
    · rintro (⟨before, c', after, rfl, hmade⟩ | hmade)
      · exact ⟨before, c', after ++ [c], by simp, hmade⟩
      · exact ⟨calls, c, [], rfl, hmade⟩
    · rintro ⟨before, c', after, hcalls, hmade⟩
      rcases List.eq_nil_or_concat after with rfl | ⟨rest, last, rfl⟩
      · obtain ⟨rfl, hlast⟩ := List.append_inj' hcalls rfl
        cases hlast
        exact .inr hmade
      · rw [List.concat_eq_append, ← List.cons_append, ← List.append_assoc] at hcalls
        obtain ⟨rfl, -⟩ := List.append_inj' hcalls rfl
        exact .inl ⟨before, c', rest, rfl, hmade⟩

/-- A histogram is put into the root, and then a directory of its name is made there. -/
theorem directory_over_histogram : (built
    [.insert [] (Spectrum.make "E" "E" 1 0 1), .makeDir ["E"]] : HistogramTree Float).Clashes
      [] "E" :=
  ⟨by decide +kernel, by decide +kernel⟩

end HistogramTree

end VariHist
