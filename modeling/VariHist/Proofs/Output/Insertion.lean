import Mathlib
import VariHist.Proofs.Output.History

/-!
# Insertion as an update

A tree may be read as a map from paths and names to histograms.  Making directories does not change
this map, and putting a histogram into the tree changes it at one place.

* `get?_makeDir`, `count_makeDir` — directories hold no histogram when they are made.
* `count_putDir` — histograms are counted with those of a directory exchanged.
* `insert_updates` — when an insertion succeeds, and what it changes.
-/

namespace VariHist

namespace HistogramTree

variable {ν : Type} {t d : HistogramTree ν} {path : List String} {name : String} {h : Spectrum ν}

/-! ## Lookups -/

theorem get?_append (t : HistogramTree ν) (path rest : List String) (name : String) :
    t.get? (path ++ rest) name = (t.dirAt path).get? rest name := by
  rw [get?, dir?_append, dirAt]
  cases t.dir? path with
  | some d => rfl
  | none => exact (get?_empty rest name).symm

/-- Making directories changes no lookup. -/
theorem get?_makeDir (path : List String) (t : HistogramTree ν) (p : List String) (n : String) :
    (Step.stateAfter (makeDir path) t).get? p n = t.get? p n := by
  rw [stateAfter_makeDir, get?_putDir]
  split_ifs with hprefix
  · obtain ⟨rest, rfl⟩ := hprefix
    rw [List.drop_left, get?_append]
  · rfl

/-! ## Counts -/

/-- Values put under keys are counted with those they take the place of. -/
theorem countAll_putInOrder {l : List (String × HistogramTree ν)}
    (hl : (l.map Prod.fst).Pairwise (· < ·)) (key : String) (d : HistogramTree ν) :
    countAll (putInOrder key d l) + ((l.lookup key).getD empty).count = countAll l + d.count := by
  induction l with
  | nil =>
    show d.count + 0 + 0 = 0 + d.count
    omega
  | cons a l ih =>
    obtain ⟨name, old⟩ := a
    obtain ⟨hfirst, hrest⟩ := List.pairwise_cons.1 hl
    unfold putInOrder
    rw [lookup_cons_ite]
    split_ifs with hlt heq heq
    · exact absurd heq hlt.ne
    · rw [lookup_eq_none_of_lt fun k hk => hlt.trans (hfirst k hk)]
      show d.count + countAll ((name, old) :: l) + 0 = _
      omega
    · show d.count + countAll l + old.count = old.count + countAll l + d.count
      omega
    · have hbelow := ih hrest
      show old.count + countAll (putInOrder key d l) + _ = old.count + countAll l + d.count
      omega

/-- A directory that is put in place of another is counted in its place. -/
theorem count_putDir (ht : t.WellFormed) (d : HistogramTree ν) (path : List String) :
    (putDir d path t).count + (t.dirAt path).count = t.count + d.count := by
  induction path generalizing t with
  | nil =>
    show d.count + t.count = t.count + d.count
    omega
  | cons segment path ih =>
    have hbelow := ih (ht.below segment)
    have hdirs := countAll_putInOrder ht.tidy.dirs segment
      (putDir d path ((t.dirs.lookup segment).getD empty))
    rw [← dirAt_below, putDir]
    obtain ⟨dirs, histograms⟩ := t
    simp only [count, HistogramTree.dirs, HistogramTree.histograms] at *
    omega

theorem count_makeDir (ht : t.WellFormed) (path : List String) :
    (Step.stateAfter (makeDir path) t).count = t.count := by
  have hcount := count_putDir ht (t.dirAt (path.takeWhile isSegment)) (path.takeWhile isSegment)
  rw [stateAfter_makeDir]
  omega

/-- A histogram under a free name is one more. -/
theorem count_hold (hfree : t.holds h.name = false) :
    (node t.dirs (putInOrder h.name h t.histograms)).count = t.count + 1 := by
  rw [holds, Bool.or_eq_false_iff] at hfree
  have hnone : t.histograms.lookup h.name = none := by simpa using hfree.1
  obtain ⟨dirs, histograms⟩ := t
  simp only [count, HistogramTree.dirs, HistogramTree.histograms] at hnone ⊢
  rw [length_putInOrder hnone]
  omega

/-! ## Insertions -/

/-- What is left by an insertion that is refused. -/
theorem of_insert_eq_error {t' : HistogramTree ν} {e : Error}
    (hstep : insert path h t = .error e t') : t' = Step.stateAfter (makeDir path) t ∨ t' = t := by
  rcases insert_cases path h t with ⟨-, -, -, hok⟩ | ⟨e', herror⟩
  · rw [hstep] at hok
    cases hok
  · rw [hstep] at herror
    cases herror
    split_ifs
    · exact .inl rfl
    · exact .inr rfl

/-- An insertion that is refused changes no lookup. -/
theorem get?_of_insert_eq_error {t' : HistogramTree ν} {e : Error}
    (hstep : insert path h t = .error e t') (p : List String) (n : String) :
    t'.get? p n = t.get? p n := by
  rcases of_insert_eq_error hstep with rfl | rfl
  · exact get?_makeDir path t p n
  · rfl

theorem count_of_insert_eq_error {t' : HistogramTree ν} {e : Error} (ht : t.WellFormed)
    (hstep : insert path h t = .error e t') : t'.count = t.count := by
  rcases of_insert_eq_error hstep with rfl | rfl
  · exact count_makeDir ht path
  · rfl

theorem count_of_insert_eq_ok {t' : HistogramTree ν} (ht : t.WellFormed)
    (hstep : insert path h t = .ok () t') : t'.count = t.count + 1 := by
  rcases insert_cases path h t with ⟨-, -, hfree, hok⟩ | ⟨e, herror⟩
  · rw [hstep] at hok
    cases hok
    have hcount := count_putDir ht (.node (t.dirAt path).dirs
      (putInOrder h.name h (t.dirAt path).histograms)) path
    rw [count_hold hfree] at hcount
    omega
  · rw [hstep] at herror
    cases herror

/-- An insertion succeeds where nothing rejects it. -/
theorem exists_insert_iff : (∃ t', insert path h t = .ok () t') ↔
    (∀ segment ∈ path, isSegment segment = true) ∧ isSegment h.name = true ∧
      t.isTaken path h.name = false := by
  constructor
  · rintro ⟨t', hstep⟩
    obtain ⟨hname, hpath, hfree⟩ := not_rejects_iff.1 (insert_eq_ok hstep).1
    exact ⟨hpath, hname, Bool.eq_false_iff.2 hfree⟩
  · rintro ⟨hpath, hname, hfree⟩
    cases hstep : insert path h t with
    | ok u t' => exact ⟨t', rfl⟩
    | error e t' =>
      obtain ⟨f, -, hf⟩ := insert_eq_error hstep
      exact absurd hf (not_rejects_iff.2 ⟨hname, hpath, Bool.eq_false_iff.1 hfree⟩ f)

/-- An insertion into a tree that calls have made succeeds exactly if its path and its name are
segments and its place is not taken.  Then the histogram is found at its place, no other lookup
changes, and there is one histogram more.  A refused insertion changes no lookup and leaves the
number of histograms as it is, whatever directories it makes. -/
theorem insert_updates (calls : List (Call ν)) (path : List String) (h : Spectrum ν) :
    (Step.answer (insert path h) (built calls) = .ok () ↔
      (∀ segment ∈ path, isSegment segment = true) ∧ isSegment h.name = true ∧
        (built calls).isTaken path h.name = false) ∧
    (Step.answer (insert path h) (built calls) = .ok () →
      (∀ p n, (Step.stateAfter (insert path h) (built calls)).get? p n =
        if p = path ∧ n = h.name then some h else (built calls).get? p n) ∧
      (Step.stateAfter (insert path h) (built calls)).count = (built calls).count + 1) ∧
    (Step.answer (insert path h) (built calls) ≠ .ok () →
      (∀ p n, (Step.stateAfter (insert path h) (built calls)).get? p n =
        (built calls).get? p n) ∧
      (Step.stateAfter (insert path h) (built calls)).count = (built calls).count) := by
  have ht := wellFormed_built calls
  rw [← exists_insert_iff]
  cases hstep : insert path h (built calls) with
  | ok answer t' =>
    have hanswer : Step.answer (insert path h) (built calls) = .ok () := by
      rw [Step.answer, hstep]
    rw [Step.stateAfter_of_eq_ok hstep]
    refine ⟨iff_of_true hanswer ⟨t', rfl⟩, fun _ => ?_, fun hne => absurd hanswer hne⟩
    exact ⟨(get?_insert hstep).2, count_of_insert_eq_ok ht hstep⟩
  | error e t' =>
    have hanswer : Step.answer (insert path h) (built calls) ≠ .ok () := by
      rw [Step.answer, hstep]
      rintro ⟨⟩
    rw [Step.stateAfter_of_eq_error hstep]
    refine ⟨iff_of_false hanswer (by simp), fun hok => absurd hok hanswer, fun _ => ?_⟩
    exact ⟨get?_of_insert_eq_error hstep, count_of_insert_eq_error ht hstep⟩

end HistogramTree

end VariHist
