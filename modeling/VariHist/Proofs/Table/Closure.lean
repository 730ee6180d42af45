import Mathlib
import VariHist.Proofs.Table.Denotation

/-!
# What is scheduled

A schedule lists what the filters and the wanted columns depend on, and nothing else.  The marks
from which it is read off are made by walks that stop at marked columns, one walk after another on
the same marks.  A walk that stops there misses nothing as long as the marks are closed under
inputs when it starts, and each walk leaves them so.

* `DependsOn` — a column is reached from another one through inputs.
* `Walk` — the walk as the recursion makes it, with no bound on its depth: a walk is a finite tree
  of visits, and every look-up of a visit succeeds.
* `Schedule.walk_markAll` — walks end, whatever is marked when they start.
* `Schedule.marked_markAll_iff` — on closed marks, they add exactly what the visited columns depend
  on.
* `Reachable.schedule_closure` — the schedule of every table that can be reached.
-/

namespace VariHist

variable {columns : Array Column} {marks marks' : Array Bool} {id i j : Nat} {ids : List Nat}

/-! ## Dependencies -/

/-- The column at a position reads the column at another one. -/
def ReadsAt (columns : Array Column) (id i : Nat) : Prop :=
  ∃ c, columns[id]? = some c ∧ i ∈ c.source.inputs

/-- A column depends on itself, on the columns that it reads, on those that they read, and so
on. -/
def DependsOn (columns : Array Column) : Nat → Nat → Prop :=
  Relation.ReflTransGen (ReadsAt columns)

theorem ReadsAt.lt (hc : InputsBefore columns) (h : ReadsAt columns id i) : i < id := by
  obtain ⟨c, hcol, hi⟩ := h
  exact (hc id c hcol i hi).1

theorem ReadsAt.lt_size (h : ReadsAt columns id i) : id < columns.size := by
  obtain ⟨c, hcol, -⟩ := h
  exact (Array.getElem?_eq_some_iff.1 hcol).1

theorem DependsOn.le (hc : InputsBefore columns) (h : DependsOn columns id i) : i ≤ id := by
  induction h with
  | refl => exact le_rfl
  | tail _ hread ih => exact (hread.lt hc).le.trans ih

/-- Marks that are closed under inputs hold everything that a marked column depends on. -/
theorem ClosedBelow.dependsOn (hclosed : ClosedBelow columns columns.size marks)
    (hid : Marked marks id) (h : DependsOn columns id i) : Marked marks i := by
  induction h with
  | refl => exact hid
  | tail _ hread ih =>
    have hlt := hread.lt_size
    obtain ⟨c, hcol, hi⟩ := hread
    exact hclosed _ c hlt ih hcol _ hi

/-! ## Walks -/

/-- Columns are visited one after another.  A visit to a marked column is over at once; a visit to
another one marks it and visits its inputs. -/
inductive Walk (columns : Array Column) : List Nat → Array Bool → Array Bool → Prop
  | done (marks : Array Bool) : Walk columns [] marks marks
  | marked {id : Nat} {ids : List Nat} {marks marks' : Array Bool} (hid : marks[id]? = some true)
    (rest : Walk columns ids marks marks') : Walk columns (id :: ids) marks marks'
  | fresh {id : Nat} {ids : List Nat} {c : Column} {marks marks' marks'' : Array Bool}
    (hid : marks[id]? = some false) (hcol : columns[id]? = some c)
    (inputs : Walk columns c.source.inputs (marks.setIfInBounds id true) marks')
    (rest : Walk columns ids marks' marks'') : Walk columns (id :: ids) marks marks''

namespace Walk

/-- A visit, and then the others. -/
theorem cons {marks'' : Array Bool} (first : Walk columns [id] marks marks')
    (rest : Walk columns ids marks' marks'') : Walk columns (id :: ids) marks marks'' := by
  cases first with
  | marked hid more =>
    cases more
    exact .marked hid rest
  | fresh hid hcol inputs more =>
    cases more
    exact .fresh hid hcol inputs rest

/-- A walk marks nothing but what the visited columns depend on. -/
theorem marked_only (h : Walk columns ids marks marks') (hj : Marked marks' j) :
    Marked marks j ∨ ∃ id ∈ ids, DependsOn columns id j := by
  induction h with
  | done marks => exact .inl hj
  | marked _ _ ih =>
    exact (ih hj).imp_right fun ⟨id, hid, hdep⟩ => ⟨id, List.mem_cons_of_mem _ hid, hdep⟩
  | @fresh id ids c marks marks' marks'' hid hcol _ _ ihInputs ihRest =>
    rcases ihRest hj with hj | ⟨k, hk, hdep⟩
    · rcases ihInputs hj with hj | ⟨i, hi, hdep⟩
      · rcases (Schedule.marked_setIfInBounds (Schedule.lt_size_of_fresh hid)).1 hj with rfl | hj
        · exact .inr ⟨j, List.mem_cons_self, .refl⟩
        · exact .inl hj
      · exact .inr ⟨id, List.mem_cons_self, .head ⟨c, hcol, hi⟩ hdep⟩
    · exact .inr ⟨k, List.mem_cons_of_mem _ hk, hdep⟩

end Walk

namespace Schedule

/-- A fresh column is marked and its inputs are visited: all of them, since they stand before
it. -/
theorem mark_fresh (hc : InputsBefore columns) {c : Column} (hid : marks[id]? = some false)
    (hcol : columns[id]? = some c) :
    mark columns id marks = markAll columns c.source.inputs (marks.setIfInBounds id true) := by
  rw [mark, if_pos hid, hcol, markAll]
  exact List.foldl_ext _ _ _ fun _ i hi => dif_pos (hc id c hcol i hi).1

theorem mark_marked (hid : marks[id]? = some true) : mark columns id marks = marks := by
  rw [mark, if_neg (by simp [hid])]

theorem size_mark (hc : InputsBefore columns) (id : Nat) (marks : Array Bool) :
    (mark columns id marks).size = marks.size :=
  (marking_mark hc id marks).1.size

/-- Visits that end one by one end as a whole. -/
theorem walk_of_visits (hc : InputsBefore columns)
    (hvisit : ∀ id ∈ ids, ∀ marks : Array Bool, marks.size = columns.size →
      Walk columns [id] marks (mark columns id marks))
    (hsize : marks.size = columns.size) : Walk columns ids marks (markAll columns ids marks) := by
  induction ids generalizing marks with
  | nil => exact .done marks
  | cons id ids ih =>
    obtain ⟨hfirst, hrest⟩ := List.forall_mem_cons.1 hvisit
    exact (hfirst marks hsize).cons (ih hrest ((size_mark hc id marks).trans hsize))

/-- A visit ends: the inputs of a column stand before it, so the walk cannot come back to it. -/
theorem walk_mark (hc : InputsBefore columns) (hid : id < columns.size)
    (hsize : marks.size = columns.size) : Walk columns [id] marks (mark columns id marks) := by
  induction id using Nat.strong_induction_on generalizing marks with
  | _ id ih =>
    have hcol := Array.getElem?_eq_getElem hid
    obtain ⟨mark, hget⟩ : ∃ mark, marks[id]? = some mark :=
      ⟨_, Array.getElem?_eq_getElem (hsize ▸ hid)⟩
    cases mark with
    | true =>
      rw [mark_marked hget]
      exact .marked hget (.done marks)
    | false =>
      rw [mark_fresh hc hget hcol]
      refine .fresh hget hcol (walk_of_visits hc (fun i hi marks hsize => ?_) ?_) (.done _)
      · have hlt := (hc id _ hcol i hi).1
        exact ih i hlt (hlt.trans hid) hsize
      · rw [Array.size_setIfInBounds, hsize]

/-- Walks end, whatever is marked when they start. -/
theorem walk_markAll (hc : InputsBefore columns) (hids : ∀ id ∈ ids, id < columns.size)
    (hsize : marks.size = columns.size) : Walk columns ids marks (markAll columns ids marks) :=
  walk_of_visits hc (fun id hid _ => walk_mark hc (hids id hid)) hsize

/-- Walks from closed marks add exactly what the visited columns depend on. -/
theorem marked_markAll_iff (hc : InputsBefore columns) (hids : ∀ id ∈ ids, id < columns.size)
    (hsize : marks.size = columns.size) (hclosed : ClosedBelow columns columns.size marks) :
    Marked (markAll columns ids marks) j ↔
      Marked marks j ∨ ∃ id ∈ ids, DependsOn columns id j := by
  obtain ⟨hmarking, hmarked⟩ := marking_markAll hc ids hids marks
  constructor
  · exact (walk_markAll hc hids hsize).marked_only
  · rintro (hj | ⟨id, hid, hdep⟩)
    · exact hmarking.keeps j hj
    · refine (hmarking.closed _ hclosed).dependsOn (hmarked id hid ?_) hdep
      rw [hsize]
      exact hids id hid

/-! ## Lists of positions -/

variable {filters targets : List Nat}

theorem not_marked_replicate (n j : Nat) : ¬ Marked (Array.replicate n false) j := by
  rw [Marked, Array.getD_eq_getD_getElem?, Array.getElem?_replicate]
  split <;> simp

/-- What is evaluated before the filters are asked is what they depend on. -/
theorem mem_beforeFilters_make_iff (hc : InputsBefore columns)
    (hf : ∀ id ∈ filters, id < columns.size) (targets : List Nat) :
    j ∈ (make columns filters targets).beforeFilters ↔
      ∃ id ∈ filters, DependsOn columns id j := by
  have hmarked := (marked_markAll_iff hc hf Array.size_replicate
    (closedBelow_replicate columns columns.size columns.size)).trans
      (or_iff_right (not_marked_replicate columns.size j))
  rw [make, List.mem_filter, List.mem_range, ← hmarked]
  refine and_iff_right_of_imp fun hj => ?_
  obtain ⟨id, hid, hdep⟩ := hmarked.1 hj
  exact (hdep.le hc).trans_lt (hf id hid)

/-- What is evaluated after that is what the wanted columns depend on, if it was not needed
before. -/
theorem mem_afterFilters_make_iff (hc : InputsBefore columns)
    (hf : ∀ id ∈ filters, id < columns.size) (ht : ∀ id ∈ targets, id < columns.size) :
    j ∈ (make columns filters targets).afterFilters ↔
      (∃ id ∈ targets, DependsOn columns id j) ∧
        j ∉ (make columns filters targets).beforeFilters := by
  have hfresh := closedBelow_replicate columns columns.size columns.size
  have hsize : (Array.replicate columns.size false).size = columns.size := Array.size_replicate
  have hforFilters : Marked (markAll columns filters (Array.replicate columns.size false)) j ↔
      j ∈ (make columns filters targets).beforeFilters := by
    rw [marked_markAll_iff hc hf hsize hfresh, or_iff_right (not_marked_replicate _ _),
      mem_beforeFilters_make_iff hc hf]
  -- the walks to the wanted columns start on the marks that the filters left, and these are closed
  obtain ⟨hmarking, -⟩ := marking_markAll hc filters hf (Array.replicate columns.size false)
  have hforAll : Marked (markAll columns targets
      (markAll columns filters (Array.replicate columns.size false))) j ↔ _ :=
    marked_markAll_iff hc ht (hmarking.size.trans hsize) (hmarking.closed _ hfresh)
  rw [← hforFilters, make, List.mem_filter, List.mem_range, Bool.and_eq_true, Bool.not_eq_true']
  unfold Marked at hforAll hforFilters ⊢
  rw [hforAll, Bool.not_eq_true]
  constructor
  · rintro ⟨-, hj | hj, hnot⟩
    · rw [hnot] at hj
      cases hj
    · exact ⟨hj, hnot⟩
  · rintro ⟨⟨id, hid, hdep⟩, hnot⟩
    exact ⟨(hdep.le hc).trans_lt (ht id hid), .inr ⟨id, hid, hdep⟩, hnot⟩

theorem ascending_beforeFilters (columns : Array Column) (filters targets : List Nat) :
    (make columns filters targets).beforeFilters.Pairwise (· < ·) :=
  List.pairwise_lt_range.filter _

theorem ascending_afterFilters (columns : Array Column) (filters targets : List Nat) :
    (make columns filters targets).afterFilters.Pairwise (· < ·) :=
  List.pairwise_lt_range.filter _

/-- In an ascending list, a smaller position stands before. -/
theorem mem_of_lt {l done rest : List Nat} (hl : l.Pairwise (· < ·))
    (hsplit : l = done ++ id :: rest)
    (hi : i ∈ l) (hlt : i < id) : i ∈ done := by
  subst hsplit
  rcases List.mem_append.1 hi with hi | hi
  · exact hi
  · rcases List.mem_cons.1 hi with rfl | hi
    · exact absurd hlt (lt_irrefl _)
    · have hafter := (List.pairwise_cons.1 (List.pairwise_append.1 hl).2.1).1 i hi
      exact absurd (hlt.trans hafter) (lt_irrefl _)

/-- The same for two ascending lists, one after the other, if what is looked for is in the first one
or in the list of the position itself. -/
theorem mem_of_lt_append {first second done rest : List Nat} (hfirst : first.Pairwise (· < ·))
    (hsecond : second.Pairwise (· < ·)) (hsplit : first ++ second = done ++ id :: rest)
    (hin : id ∈ first → i ∈ first) (hin' : id ∈ second → i ∈ first ∨ i ∈ second) (hlt : i < id) :
    i ∈ done := by
  rcases List.append_eq_append_iff.1 hsplit with ⟨l, rfl, hl⟩ | ⟨l, rfl, hl⟩
  · have hid : id ∈ second := hl ▸ List.mem_append_right _ List.mem_cons_self
    refine List.mem_append.2 ((hin' hid).imp_right fun hi => ?_)
    exact mem_of_lt hsecond hl hi hlt
  · rcases List.cons_eq_append_iff.1 hl with ⟨rfl, rfl⟩ | ⟨l, rfl, -⟩
    · rw [List.append_nil] at hin'
      rcases hin' List.mem_cons_self with hi | hi
      · exact hi
      · exact absurd (mem_of_lt (List.nil_append _ ▸ hsecond) rfl hi hlt) List.not_mem_nil
    · exact mem_of_lt hfirst rfl (hin (List.mem_append_right _ List.mem_cons_self)) hlt

/-- In the order of evaluation, everything that a column reads stands before it. -/
theorem readsAt_before (hc : InputsBefore columns) (hf : ∀ id ∈ filters, id < columns.size)
    (ht : ∀ id ∈ targets, id < columns.size) {done rest : List Nat}
    (hsplit : (make columns filters targets).beforeFilters ++
      (make columns filters targets).afterFilters = done ++ id :: rest)
    (hread : ReadsAt columns id i) : i ∈ done := by
  refine mem_of_lt_append (ascending_beforeFilters columns filters targets)
    (ascending_afterFilters columns filters targets) hsplit ?before ?after (hread.lt hc)
  case before =>
    intro hid
    obtain ⟨k, hk, hdep⟩ := (mem_beforeFilters_make_iff hc hf targets).1 hid
    exact (mem_beforeFilters_make_iff hc hf targets).2 ⟨k, hk, hdep.tail hread⟩
  case after =>
    intro hid
    obtain ⟨⟨k, hk, hdep⟩, -⟩ := (mem_afterFilters_make_iff hc hf ht).1 hid
    refine or_iff_not_imp_left.2 fun hi => ?_
    exact (mem_afterFilters_make_iff hc hf ht).2 ⟨⟨k, hk, hdep.tail hread⟩, hi⟩

end Schedule

/-! ## Tables that can be reached -/

namespace EventTable

variable {α : Type} {t : EventTable α}

/-- The schedule of a table lists exactly what is needed: before the filters are asked, what they
depend on; after that, what else the wanted columns depend on.  Both lists ascend and no column is
in both; in the order of evaluation, everything that a column reads stands before it.  The walks by
which the schedule is made end, and no look-up of theirs fails, whatever is marked when they
start. -/
theorem Reachable.schedule_closure [Aggregation α] (ht : t.Reachable) (targets : List Nat)
    (htargets : ∀ id ∈ targets, id < t.columns.size) :
    let s := Schedule.make t.columns t.filters targets
    (∀ id, id ∈ s.beforeFilters ↔ ∃ filter ∈ t.filters, DependsOn t.columns filter id) ∧
    (∀ id, id ∈ s.afterFilters ↔
      (∃ target ∈ targets, DependsOn t.columns target id) ∧ id ∉ s.beforeFilters) ∧
    s.beforeFilters.Pairwise (· < ·) ∧ s.afterFilters.Pairwise (· < ·) ∧
    s.beforeFilters.Disjoint s.afterFilters ∧
    (∀ done id rest, s.beforeFilters ++ s.afterFilters = done ++ id :: rest →
      ∀ i, ReadsAt t.columns id i → i ∈ done) ∧
    ∀ ids marks, (∀ id ∈ ids, id < t.columns.size) → marks.size = t.columns.size →
      Walk t.columns ids marks (Schedule.markAll t.columns ids marks) := by
  have hc := ht.wellFormed.inputs
  have hf : ∀ id ∈ t.filters, id < t.columns.size :=
    fun id hid => kindIn_eq_some_lt (ht.wellFormed.filters id hid)
  refine ⟨fun id => Schedule.mem_beforeFilters_make_iff hc hf targets,
    fun id => Schedule.mem_afterFilters_make_iff hc hf htargets,
    Schedule.ascending_beforeFilters _ _ _, Schedule.ascending_afterFilters _ _ _,
    fun id hbefore hid => ((Schedule.mem_afterFilters_make_iff hc hf htargets).1 hid).2 hbefore,
    fun done id rest hsplit i => Schedule.readsAt_before hc hf htargets hsplit,
    fun ids marks => Schedule.walk_markAll hc⟩

/-- The filter and the wanted column share the column `x`. -/
theorem schedule_closure_of_negated :
    ∃ t : EventTable Recorder, t.Reachable ∧ t.filters = [0] ∧ 2 < t.columns.size ∧
      DependsOn t.columns 2 0 ∧
      0 ∈ (Schedule.make t.columns t.filters [2]).beforeFilters ∧
      0 ∉ (Schedule.make t.columns t.filters [2]).afterFilters ∧
      1 ∈ (Schedule.make t.columns t.filters [2]).afterFilters ∧
      Walk t.columns [2] #[true, false, false] #[true, true, true] := by
  have ht := negatedEvents_reachable
  have hv : ReadsAt (negatedEvents [0] [⟨2, Recorder.make "r" 0⟩]).columns 2 1 :=
    ⟨_, rfl, List.mem_singleton_self 1⟩
  have hy : ReadsAt (negatedEvents [0] [⟨2, Recorder.make "r" 0⟩]).columns 1 0 :=
    ⟨_, rfl, List.mem_singleton_self 0⟩
  obtain ⟨hbefore, hafter, -, -, hdisjoint, -, hwalk⟩ :=
    ht.schedule_closure [2] (by decide)
  have hx := (hbefore 0).2 ⟨0, List.mem_singleton_self 0, .refl⟩
  have hnot : ¬ DependsOn (negatedEvents [0] [⟨2, Recorder.make "r" 0⟩]).columns 0 1 :=
    fun h => absurd (h.le ht.wellFormed.inputs) (by decide)
  refine ⟨_, ht, rfl, by decide, .head hv (.single hy), hx, fun h => hdisjoint hx h, ?_, ?_⟩
  · refine (hafter 1).2 ⟨⟨2, List.mem_singleton_self 2, .single hv⟩, fun h => ?_⟩
    obtain ⟨filter, hfilter, hdep⟩ := (hbefore 1).1 h
    rw [List.mem_singleton.1 hfilter] at hdep
    exact hnot hdep
  · have hmarks : Schedule.markAll (negatedEvents [0] [⟨2, Recorder.make "r" 0⟩]).columns [2]
        #[true, false, false] = #[true, true, true] := by decide +kernel
    rw [← hmarks]
    exact hwalk [2] #[true, false, false] (by decide) rfl

end EventTable

end VariHist
