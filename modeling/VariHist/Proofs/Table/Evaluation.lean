import Mathlib
import VariHist.Proofs.Table.Reachable

/-!
# What the columns hold

A column has a value on a row by what it is: a stored column what is stored, a derived column what
its kernel makes of the values of its inputs.  The event loop works these values out column by
column in reused buffers, and only those that something depends on.

* `scalarOn`, `vectorOn` — the value of a column on a row; `passesOn` — whether the filters keep
  the row.
* `marking_mark` — marking a column marks what it depends on, and leaves no gap.
* `evalRow_make` — a scheduled row is kept exactly when it passes the filters, and then the wanted
  columns have their values, whatever an earlier row left in the buffers.
-/

namespace VariHist

/-! ## Values -/

/-- The number that a scalar column holds on a row. -/
def scalarOn (columns : Array Column) (row id : Nat) : Float :=
  match columns[id]?.map Column.source with
  | some (.stored values) => values.getD row 0
  | some (.derived inputs (.scalar f)) =>
    f (inputs.map fun i => if _h : i < id then scalarOn columns row i else 0)
  | _ => 0
termination_by id

/-- The numbers that a vector column holds on a row. -/
def vectorOn (columns : Array Column) (row id : Nat) : List Float :=
  match columns[id]?.map Column.source with
  | some (.derived inputs (.vector f)) => f (inputs.map (scalarOn columns row))
  | _ => []

/-- Do the filters keep the row? -/
def passesOn (columns : Array Column) (filters : List Nat) (row : Nat) : Bool :=
  filters.all fun id => 0 < scalarOn columns row id

/-- The values of a vector column on the rows that pass the filters, in order. -/
def valuesOn (columns : Array Column) (filters : List Nat) (rows id : Nat) : List (List Float) :=
  ((List.range rows).filter (passesOn columns filters)).map fun row => vectorOn columns row id

variable {columns : Array Column} {row id : Nat}

theorem scalarOn_stored {name : String} {values : Array Float}
    (h : columns[id]? = some ⟨name, .stored values⟩) :
    scalarOn columns row id = values.getD row 0 := by
  rw [scalarOn, h]
  rfl

theorem scalarOn_derived (hc : InputsBefore columns) {name : String} {inputs : List Nat}
    {f : List Float → Float} (h : columns[id]? = some ⟨name, .derived inputs (.scalar f)⟩) :
    scalarOn columns row id = f (inputs.map (scalarOn columns row)) := by
  rw [scalarOn, h]
  refine congrArg f (List.map_congr_left fun i hi => ?_)
  rw [dif_pos (hc id _ h i hi).1]

theorem vectorOn_derived {name : String} {inputs : List Nat} {f : List Float → List Float}
    (h : columns[id]? = some ⟨name, .derived inputs (.vector f)⟩) :
    vectorOn columns row id = f (inputs.map (scalarOn columns row)) := by
  rw [vectorOn, h]
  rfl

/-! ## Evaluating columns -/

/-- Buffers for all columns, in which the columns singled out by `done` have their values. -/
structure RowBuffers.Holds (columns : Array Column) (row : Nat) (done : Nat → Prop)
    (b : RowBuffers) : Prop where
  scalars_size : b.scalars.size = columns.size
  vectors_size : b.vectors.size = columns.size
  scalar : ∀ id, done id → kindIn columns id = some .scalar → b.scalar id = scalarOn columns row id
  vector : ∀ id, done id → kindIn columns id = some .vector → b.vector id = vectorOn columns row id

namespace RowBuffers

variable {b : RowBuffers} {done : Nat → Prop}

theorem Holds.empty (columns : Array Column) (row : Nat) :
    (empty columns.size).Holds columns row fun _ => False where
  scalars_size := Array.size_replicate
  vectors_size := Array.size_replicate
  scalar _ h := h.elim
  vector _ h := h.elim

/-- On another row nothing is known but the sizes of the buffers. -/
theorem Holds.forget (h : b.Holds columns row done) (row' : Nat) :
    b.Holds columns row' fun _ => False :=
  ⟨h.scalars_size, h.vectors_size, fun _ h => h.elim, fun _ h => h.elim⟩

theorem Holds.mono {less : Nat → Prop} (h : b.Holds columns row done) (hl : ∀ i, less i → done i) :
    b.Holds columns row less :=
  ⟨h.scalars_size, h.vectors_size, fun i hi => h.scalar i (hl i hi),
    fun i hi => h.vector i (hl i hi)⟩

theorem getD_setIfInBounds {β : Type} (a : Array β) (x d : β) (j : Nat) {i : Nat}
    (hi : i < a.size) : (a.setIfInBounds i x).getD j d = if j = i then x else a.getD j d := by
  rw [Array.getD_eq_getD_getElem?, Array.getElem?_setIfInBounds]
  by_cases h : i = j
  · subst h
    simp [hi]
  · rw [if_neg h, if_neg (Ne.symm h), ← Array.getD_eq_getD_getElem?]

theorem Holds.setScalar (h : b.Holds columns row done) (hk : kindIn columns id = some .scalar) :
    Holds columns row (fun j => done j ∨ j = id)
      { b with scalars := b.scalars.setIfInBounds id (scalarOn columns row id) } where
  scalars_size := by rw [Array.size_setIfInBounds, h.scalars_size]
  vectors_size := h.vectors_size
  scalar j hj hkj := by
    rw [RowBuffers.scalar, getD_setIfInBounds _ _ _ _ (by
      rw [h.scalars_size]
      exact kindIn_eq_some_lt hk)]
    by_cases hji : j = id
    · rw [if_pos hji, hji]
    · rw [if_neg hji]
      exact h.scalar j (hj.resolve_right hji) hkj
  vector j hj hkj := by
    have hji : j ≠ id := by
      rintro rfl
      rw [hk] at hkj
      cases hkj
    exact h.vector j (hj.resolve_right hji) hkj

theorem Holds.setVector (h : b.Holds columns row done) (hk : kindIn columns id = some .vector) :
    Holds columns row (fun j => done j ∨ j = id)
      { b with vectors := b.vectors.setIfInBounds id (vectorOn columns row id) } where
  scalars_size := h.scalars_size
  vectors_size := by rw [Array.size_setIfInBounds, h.vectors_size]
  scalar j hj hkj := by
    have hji : j ≠ id := by
      rintro rfl
      rw [hk] at hkj
      cases hkj
    exact h.scalar j (hj.resolve_right hji) hkj
  vector j hj hkj := by
    rw [RowBuffers.vector, getD_setIfInBounds _ _ _ _ (by
      rw [h.vectors_size]
      exact kindIn_eq_some_lt hk)]
    by_cases hji : j = id
    · rw [if_pos hji, hji]
    · rw [if_neg hji]
      exact h.vector j (hj.resolve_right hji) hkj

/-- A column whose inputs have their values gets its own. -/
theorem Holds.evalColumn (hc : InputsBefore columns) (h : b.Holds columns row done) (id : Nat)
    (hin : ∀ c, columns[id]? = some c → ∀ i ∈ c.source.inputs, done i) :
    (evalColumn columns row b id).Holds columns row fun j => done j ∨ j = id := by
  have hargs : ∀ name inputs kernel, columns[id]? = some ⟨name, .derived inputs kernel⟩ →
      inputs.map b.scalar = inputs.map (scalarOn columns row) := by
    intro name inputs kernel hid
    exact List.map_congr_left fun i hi => h.scalar i (hin _ hid i hi) (hc id _ hid i hi).2
  cases hid : columns[id]? with
  | none =>
    have hkind : ∀ kind j, done j ∨ j = id → kindIn columns j = some kind → done j := by
      rintro kind j (hj | rfl) hk
      · exact hj
      · rw [kindIn, hid] at hk
        cases hk
    rw [RowBuffers.evalColumn, hid]
    exact ⟨h.scalars_size, h.vectors_size, fun j hj hk => h.scalar j (hkind _ j hj hk) hk,
      fun j hj hk => h.vector j (hkind _ j hj hk) hk⟩
  | some c =>
    have hkind : kindIn columns id = some c.kind := by rw [kindIn, hid, Option.map_some]
    rw [RowBuffers.evalColumn, hid]
    obtain ⟨name, source⟩ := c
    cases source with
    | stored values =>
      have hset := h.setScalar hkind
      rw [scalarOn_stored hid] at hset
      exact hset
    | derived inputs kernel =>
      cases kernel with
      | scalar f =>
        have hset := h.setScalar hkind
        rw [scalarOn_derived hc hid, ← hargs _ _ _ hid] at hset
        exact hset
      | vector f =>
        have hset := h.setVector hkind
        rw [vectorOn_derived hid, ← hargs _ _ _ hid] at hset
        exact hset

/-- Columns evaluated in ascending order get their values, if what they read is done before or is
among them. -/
theorem Holds.evalAll (hc : InputsBefore columns) (h : b.Holds columns row done) (p : Nat → Bool)
    (hp : ∀ id c, p id = true → columns[id]? = some c → ∀ i ∈ c.source.inputs, done i ∨ p i = true)
    (n : Nat) :
    (((List.range n).filter p).foldl (RowBuffers.evalColumn columns row) b).Holds columns row
      fun j => done j ∨ j < n ∧ p j = true := by
  induction n with
  | zero => exact h.mono fun i hi => hi.resolve_right fun hn => Nat.not_lt_zero i hn.1
  | succ n ih =>
    rw [List.range_succ, List.filter_append, List.foldl_append, List.filter_cons,
      List.filter_nil]
    by_cases hn : p n = true
    · rw [if_pos hn, List.foldl_cons, List.foldl_nil]
      refine (ih.evalColumn hc n fun c hid i hi => ?_).mono ?_
      · exact (hp n c hn hid i hi).imp_right fun hpi => ⟨(hc n c hid i hi).1, hpi⟩
      · rintro j (hj | ⟨hj, hpj⟩)
        · exact .inl (.inl hj)
        · rcases Nat.lt_succ_iff_lt_or_eq.1 hj with hj | rfl
          · exact .inl (.inr ⟨hj, hpj⟩)
          · exact .inr rfl
    · rw [if_neg hn, List.foldl_nil]
      refine ih.mono ?_
      rintro j (hj | ⟨hj, hpj⟩)
      · exact .inl hj
      · rcases Nat.lt_succ_iff_lt_or_eq.1 hj with hj | rfl
        · exact .inr ⟨hj, hpj⟩
        · exact absurd hpj hn

end RowBuffers

/-! ## Marking -/

/-- Is the column at a position marked? -/
def Marked (marks : Array Bool) (id : Nat) : Prop :=
  marks.getD id false = true

/-- Of the columns before a position, a marked one has all its inputs marked. -/
def ClosedBelow (columns : Array Column) (k : Nat) (marks : Array Bool) : Prop :=
  ∀ (id : Nat) (c : Column), id < k → Marked marks id → columns[id]? = some c →
    ∀ i ∈ c.source.inputs, Marked marks i

/-- What a walk does to the marks that stays below a position. -/
structure Marking (columns : Array Column) (bound : Nat) (marks marks' : Array Bool) : Prop where
  size : marks'.size = marks.size
  keeps : ∀ j, Marked marks j → Marked marks' j
  above : ∀ j, bound ≤ j → Marked marks' j → Marked marks j
  closed : ∀ k, ClosedBelow columns k marks → ClosedBelow columns k marks'

namespace Marking

variable {bound : Nat} {marks marks' marks'' : Array Bool}

theorem refl (columns : Array Column) (bound : Nat) (marks : Array Bool) :
    Marking columns bound marks marks :=
  ⟨rfl, fun _ h => h, fun _ _ h => h, fun _ h => h⟩

theorem trans (h : Marking columns bound marks marks') (h' : Marking columns bound marks' marks'') :
    Marking columns bound marks marks'' :=
  ⟨h'.size.trans h.size, fun j hj => h'.keeps j (h.keeps j hj),
    fun j hb hj => h.above j hb (h'.above j hb hj), fun k hk => h'.closed k (h.closed k hk)⟩

theorem mono {more : Nat} (h : Marking columns bound marks marks') (hb : bound ≤ more) :
    Marking columns more marks marks' :=
  ⟨h.size, h.keeps, fun j hj => h.above j (hb.trans hj), h.closed⟩

end Marking

namespace Schedule

variable {marks : Array Bool}

theorem marked_setIfInBounds {j : Nat} (hid : id < marks.size) :
    Marked (marks.setIfInBounds id true) j ↔ j = id ∨ Marked marks j := by
  rw [Marked, RowBuffers.getD_setIfInBounds _ _ _ _ hid]
  by_cases h : j = id
  · simp [h]
  · simp [h, Marked]

theorem lt_size_of_fresh (h : marks[id]? = some false) : id < marks.size :=
  (Array.getElem?_eq_some_iff.1 h).1

/-- The walk over the inputs of a column. -/
theorem marking_walk
    (hmark : ∀ i < id, ∀ marks, Marking columns (i + 1) marks (mark columns i marks) ∧
      (i < marks.size → Marked (mark columns i marks) i))
    (inputs : List Nat) (hin : ∀ i ∈ inputs, i < id) (marks : Array Bool) :
    Marking columns id marks
        (inputs.foldl (fun m i => if _h : i < id then mark columns i m else m) marks) ∧
      ∀ i ∈ inputs, i < marks.size →
        Marked (inputs.foldl (fun m i => if _h : i < id then mark columns i m else m) marks) i := by
  induction inputs generalizing marks with
  | nil => exact ⟨Marking.refl _ _ _, by simp⟩
  | cons i inputs ih =>
    have hi : i < id := hin i List.mem_cons_self
    obtain ⟨hfirst, hmarked⟩ := hmark i hi marks
    obtain ⟨hrest, hall⟩ :=
      ih (fun j hj => hin j (List.mem_cons_of_mem _ hj)) (mark columns i marks)
    rw [List.foldl_cons, dif_pos hi]
    refine ⟨(hfirst.mono hi).trans hrest, fun j hj hsize => ?_⟩
    rcases List.mem_cons.1 hj with rfl | hj
    · exact hrest.keeps j (hmarked hsize)
    · exact hall j hj (hfirst.size ▸ hsize)

/-- A column that is marked first and its inputs after it: no gap is left. -/
theorem Marking.of_walk {marks' : Array Bool} (hid : id < marks.size)
    (hwalk : Marking columns id (marks.setIfInBounds id true) marks')
    (hinputs : ∀ c, columns[id]? = some c → ∀ i ∈ c.source.inputs, Marked marks' i) :
    Marking columns (id + 1) marks marks' where
  size := by rw [hwalk.size, Array.size_setIfInBounds]
  keeps j hj := hwalk.keeps j ((marked_setIfInBounds hid).2 (.inr hj))
  above j hb hj :=
    ((marked_setIfInBounds hid).1 (hwalk.above j (by omega) hj)).resolve_left (by omega)
  closed k hk j c hjk hj hcj i hi := by
    rcases Nat.lt_trichotomy j id with hlt | rfl | hgt
    · -- below the column, nothing but the walk has changed the marks
      have hbelow : ClosedBelow columns (min k id) (marks.setIfInBounds id true) := by
        intro j c hj hmj hcj i hi
        have hold := ((marked_setIfInBounds hid).1 hmj).resolve_left (by omega)
        exact (marked_setIfInBounds hid).2 (.inr (hk j c (by omega) hold hcj i hi))
      exact hwalk.closed _ hbelow j c (by omega) hj hcj i hi
    · exact hinputs c hcj i hi
    · have hold := ((marked_setIfInBounds hid).1 (hwalk.above j hgt.le hj)).resolve_left (by omega)
      exact hwalk.keeps i ((marked_setIfInBounds hid).2 (.inr (hk j c hjk hold hcj i hi)))

/-- Marking a column marks it, and with it all that it depends on. -/
theorem marking_mark (hc : InputsBefore columns) (id : Nat) (marks : Array Bool) :
    Marking columns (id + 1) marks (mark columns id marks) ∧
      (id < marks.size → Marked (mark columns id marks) id) := by
  induction id using Nat.strong_induction_on generalizing marks with
  | _ id ih =>
    rw [mark]
    by_cases hfresh : marks[id]? = some false
    · have hid := lt_size_of_fresh hfresh
      rw [if_pos hfresh]
      have hin : ∀ i ∈ ((columns[id]?.map fun c => c.source.inputs).getD []), i < id := by
        intro i hi
        cases hcol : columns[id]? with
        | none => simp [hcol] at hi
        | some c =>
          rw [hcol] at hi
          exact (hc id c hcol i hi).1
      obtain ⟨hwalk, hall⟩ := marking_walk (fun i hi marks => ih i hi marks) _ hin
        (marks.setIfInBounds id true)
      refine ⟨Marking.of_walk hid hwalk fun c hcol i hi => ?_, fun _ => ?_⟩
      · refine hall i ?_ ?_
        · rw [hcol]
          exact hi
        · rw [Array.size_setIfInBounds]
          exact (hc id c hcol i hi).1.trans hid
      · exact hwalk.keeps id ((marked_setIfInBounds hid).2 (.inl rfl))
    · rw [if_neg hfresh]
      refine ⟨Marking.refl _ _ _, fun hid => ?_⟩
      rw [Marked, Array.getD_eq_getD_getElem?]
      rw [Array.getElem?_eq_getElem hid] at hfresh ⊢
      simpa using hfresh

/-- Marking several columns marks them all. -/
theorem marking_markAll (hc : InputsBefore columns) {bound : Nat} (ids : List Nat)
    (hids : ∀ id ∈ ids, id < bound) (marks : Array Bool) :
    Marking columns bound marks (markAll columns ids marks) ∧
      ∀ id ∈ ids, id < marks.size → Marked (markAll columns ids marks) id := by
  induction ids generalizing marks with
  | nil => exact ⟨Marking.refl _ _ _, by simp⟩
  | cons id ids ih =>
    obtain ⟨hfirst, hmarked⟩ := marking_mark hc id marks
    obtain ⟨hrest, hall⟩ :=
      ih (fun j hj => hids j (List.mem_cons_of_mem _ hj)) (mark columns id marks)
    rw [markAll, List.foldl_cons, ← markAll]
    refine ⟨(hfirst.mono (hids id List.mem_cons_self)).trans hrest, fun j hj hsize => ?_⟩
    rcases List.mem_cons.1 hj with rfl | hj
    · exact hrest.keeps j (hmarked hsize)
    · exact hall j hj (hfirst.size ▸ hsize)

theorem closedBelow_replicate (columns : Array Column) (k n : Nat) :
    ClosedBelow columns k (Array.replicate n false) := by
  intro id c _ hid
  rw [Marked, Array.getD_eq_getD_getElem?, Array.getElem?_replicate] at hid
  split at hid <;> cases hid

end Schedule

/-! ## Rows -/

theorem RowBuffers.Holds.passes {b : RowBuffers} {done : Nat → Prop} {filters : List Nat}
    (h : b.Holds columns row done)
    (hf : ∀ id ∈ filters, done id ∧ kindIn columns id = some .scalar) :
    b.passes filters = passesOn columns filters row := by
  rw [Bool.eq_iff_iff, RowBuffers.passes, passesOn, List.all_eq_true, List.all_eq_true]
  refine forall₂_congr fun id hid => ?_
  rw [h.scalar id (hf id hid).1 (hf id hid).2]

/-- A row is kept exactly when it passes the filters, and then every wanted column has its value.
What an earlier row left in the buffers is of no concern. -/
theorem RowBuffers.Holds.evalRow_make {b : RowBuffers} (hc : InputsBefore columns)
    {filters targets : List Nat} (hf : ∀ id ∈ filters, kindIn columns id = some .scalar)
    (ht : ∀ id ∈ targets, id < columns.size) (h : b.Holds columns row fun _ => False) :
    (evalRow columns (Schedule.make columns filters targets) b row).2 =
        passesOn columns filters row ∧
      (evalRow columns (Schedule.make columns filters targets) b row).1.Holds columns row
        fun id => passesOn columns filters row = true ∧ id ∈ targets := by
  have hf' : ∀ id ∈ filters, id < columns.size := fun id hid => kindIn_eq_some_lt (hf id hid)
  obtain ⟨hmarking, hfilters⟩ :=
    Schedule.marking_markAll hc filters hf' (Array.replicate columns.size false)
  obtain ⟨hmarking', htargets⟩ := Schedule.marking_markAll hc targets ht
    (Schedule.markAll columns filters (Array.replicate columns.size false))
  have hclosed := hmarking.closed columns.size (Schedule.closedBelow_replicate _ _ _)
  have hclosed' := hmarking'.closed columns.size hclosed
  have hsize : (Array.replicate columns.size false).size = columns.size := Array.size_replicate
  unfold evalRow Schedule.make
  dsimp only
  generalize Schedule.markAll columns filters (Array.replicate columns.size false) = forFilters at *
  generalize Schedule.markAll columns targets forFilters = forAll at *
  have hlt : ∀ (id : Nat) (c : Column), columns[id]? = some c → id < columns.size :=
    fun id c hid => (Array.getElem?_eq_some_iff.1 hid).1
  have hbefore := h.evalAll hc (fun i => forFilters.getD i false)
    (fun id c hid hcol i hi => .inr (hclosed id c (hlt id c hcol) hid hcol i hi)) columns.size
  have hpasses := @Holds.passes _ _ _ _ filters hbefore fun id hid =>
    ⟨.inr ⟨hf' id hid, hfilters id hid (hsize.symm ▸ hf' id hid)⟩, hf id hid⟩
  rw [hpasses]
  cases hpass : passesOn columns filters row with
  | false => exact ⟨rfl, hbefore.mono fun id hid => absurd hid.1 Bool.false_ne_true⟩
  | true =>
    have hafter := hbefore.evalAll hc (fun i => forAll.getD i false && !forFilters.getD i false)
      (fun id c hid hcol i hi => ?_) columns.size
    · refine ⟨rfl, hafter.mono fun id hid => ?_⟩
      have hlt' := ht id hid.2
      have hall := htargets id hid.2 (by rw [hmarking.size, hsize]; exact hlt')
      by_cases hfor : forFilters.getD id false = true
      · exact .inl (.inr ⟨hlt', hfor⟩)
      · refine .inr ⟨hlt', ?_⟩
        rw [Bool.and_eq_true]
        exact ⟨hall, by simpa using hfor⟩
    · rw [Bool.and_eq_true] at hid
      have hi' := hclosed' id c (hlt id c hcol) hid.1 hcol i hi
      have hilt := (hc id c hcol i hi).1.trans (hlt id c hcol)
      by_cases hfor : forFilters.getD i false = true
      · exact .inl (.inr ⟨hilt, hfor⟩)
      · refine .inr ?_
        rw [Bool.and_eq_true]
        exact ⟨hi', by simpa using hfor⟩

end VariHist
