import Mathlib
import VariHist.Proofs.Naming
import VariHist.Proofs.Step
import VariHist.Proofs.Systematics.Registering
import VariHist.Proofs.Table.Definitions
import VariHist.Systematics.VariedTable

/-!
# Definitions with shifted copies

* `VariedTable.addAll_eq_ok` — columns with free names and scalar inputs are added one by one.
* `VariedTable.planDefinition_eq_ok_iff` — when a definition goes through, and what it brings along.
* `VariedTable.expand` — what a definition and a catalog do alike once nothing stops them: columns
  are added, and one of them is registered.
* `VariedTable.define_eq` — a definition that goes through is carried out as a whole, and any other
  changes nothing.
-/

namespace VariHist

variable {α : Type}

/-! ## Loops that may fail -/

/-- A list is worked out element by element: every element has to pass. -/
theorem mapM_except_eq_ok_map_iff {ε β γ : Type} {f : β → Except ε γ} {passes : β → Prop}
    {g : β → γ} (hf : ∀ a b, f a = .ok b ↔ passes a ∧ b = g a) {l : List β} {l' : List γ} :
    l.mapM f = .ok l' ↔ (∀ a ∈ l, passes a) ∧ l' = l.map g := by
  rw [mapM_except_eq_ok_iff]
  simp only [hf]
  induction l generalizing l' with
  | nil => simp
  | cons a l ih =>
    cases l' with
    | nil => simp
    | cons b l' => simp [List.forall₂_cons, ih, and_assoc, and_left_comm]

namespace VariedTable

variable {v v' : VariedTable α} {name : String} {kernel : Kernel} {inputs : List String}

/-! ## Adding columns to a varied table -/

theorem onTable_attempt_eq_ok_iff {f : EventTable α → Except Error (EventTable α)} :
    onTable (Step.attempt f) v = .ok () v' ↔
      ∃ t, f v.table = .ok t ∧ v' = { v with table := t } := by
  unfold onTable Step.within Step.attempt
  dsimp only
  cases f v.table with
  | error e => simp
  | ok t => simp [eq_comm]

theorem addDerived_eq_ok {d : Definition} {t : EventTable α}
    (h : v.table.defineColumn d.name d.kernel d.inputs = .ok t) :
    addDerived d.name d.kernel d.inputs v = .ok () { v with table := t } :=
  onTable_attempt_eq_ok_iff.2 ⟨t, h, rfl⟩

/-- Columns with free names and scalar inputs can be added one after another. -/
theorem addAll_eq_ok (ds : List Definition)
    (hfree : ∀ d ∈ ds, v.table.idOf? d.name = none) (hnd : (ds.map Definition.name).Nodup)
    (hin : ∀ d ∈ ds, ∀ c ∈ d.inputs, v.table.kindOf? c = some .scalar) :
    ∃ t, (ds.forM fun d => addDerived d.name d.kernel d.inputs) v = .ok () { v with table := t } ∧
      v.table.Added ds t := by
  induction ds generalizing v with
  | nil => exact ⟨v.table, rfl, .nil _⟩
  | cons d ds ih =>
    rw [List.map_cons, List.nodup_cons] at hnd
    obtain ⟨t, hdef, hadded⟩ := EventTable.defineColumn_added
      (hfree d List.mem_cons_self) (hin d List.mem_cons_self)
    obtain ⟨t', hrest, hadded'⟩ := @ih { v with table := t }
      (fun e he => (hadded.free e.name).2 ⟨hfree e (List.mem_cons_of_mem _ he), fun hmem => by
        rw [List.map_cons, List.map_nil, List.mem_singleton] at hmem
        exact hnd.1 (hmem ▸ List.mem_map_of_mem he)⟩)
      hnd.2
      (fun e he c hc => hadded.ext.kindOf? (hin e (List.mem_cons_of_mem _ he) c hc))
    refine ⟨t', ?_, hadded.cons hadded'⟩
    change EStateM.bind (addDerived d.name d.kernel d.inputs) _ v = _
    rw [EStateM.bind, addDerived_eq_ok hdef]
    exact hrest

theorem forM_register (systematics : List String) (columns : List String) :
    (systematics.forM fun s => register s columns) v = .ok ()
      { v with registry := systematics.foldl (fun r s => r.register s columns) v.registry } := by
  induction systematics generalizing v with
  | nil => rfl
  | cons s systematics ih => exact @ih { v with registry := v.registry.register s columns }

/-- Adds columns one after another, and registers a column for some systematics. -/
def expand (ds : List Definition) (systematics : List String) (name : String) :
    Step (VariedTable α) Unit := do
  ds.forM fun d => addDerived d.name d.kernel d.inputs
  systematics.forM fun s => register s [name]

theorem expand_eq_ok {ds : List Definition} (systematics : List String) (name : String)
    (hfree : ∀ d ∈ ds, v.table.idOf? d.name = none) (hnd : (ds.map Definition.name).Nodup)
    (hin : ∀ d ∈ ds, ∀ c ∈ d.inputs, v.table.kindOf? c = some .scalar) :
    ∃ t, v.table.Added ds t ∧ expand ds systematics name v =
      .ok () ⟨t, systematics.foldl (fun r s => r.register s [name]) v.registry⟩ := by
  obtain ⟨t, hadd, hadded⟩ := addAll_eq_ok ds hfree hnd hin
  exact ⟨t, hadded, Step.bind_eq_ok_iff.2 ⟨(), ⟨t, v.registry⟩, hadd, forM_register _ _⟩⟩

/-! ## What a definition brings along -/

theorem mem_affectingAny {s : String} :
    s ∈ v.affectingAny inputs ↔ ∃ c ∈ inputs, v.registry.affects s c = true := by
  rw [affectingAny, List.mem_filter, List.any_eq_true]
  constructor
  · exact And.right
  · rintro ⟨c, hc, h⟩
    exact ⟨Registry.mem_systematics_of_affects h, c, hc, h⟩

/-- The column that is read for an input under a shift. -/
def shiftedName (v : VariedTable α) (s : String) (d : Direction) (c : String) : String :=
  if v.registry.affects s c then variationColumn c s d else c

/-- A column under a shift. -/
def copyOf (v : VariedTable α) (e : Definition) (shift : String × Direction) : Definition :=
  ⟨variationColumn e.name shift.1 shift.2, e.kernel, e.inputs.map (v.shiftedName shift.1 shift.2)⟩

/-- A column with its copies under the shifts that affect an input. -/
def withCopies (v : VariedTable α) (e : Definition) : List Definition :=
  e :: (shiftsOf (v.affectingAny e.inputs)).map (v.copyOf e)

theorem checkInput_eq_ok_iff {c : String} :
    v.checkInput c = .ok () ↔ v.table.kindOf? c = some .scalar := by
  unfold checkInput
  cases v.table.kindOf? c with
  | none => simp
  | some kind => cases kind <;> simp

theorem shiftedInputs_eq_ok_iff {s : String} {d : Direction} {l : List String} :
    v.shiftedInputs inputs s d = .ok l ↔
      (∀ c ∈ inputs, v.registry.affects s c = true →
        v.table.kindOf? (variationColumn c s d) = some .scalar) ∧
      l = inputs.map (v.shiftedName s d) := by
  refine mapM_except_eq_ok_map_iff fun c b => ?_
  by_cases h : v.registry.affects s c = true
  · rw [if_pos h, shiftedName, if_pos h, bind_except_eq_ok_iff]
    simp only [pure, Except.pure, Except.ok.injEq, h, true_implies]
    constructor
    · rintro ⟨⟨⟩, hc, rfl⟩
      exact ⟨checkInput_eq_ok_iff.1 hc, rfl⟩
    · rintro ⟨hc, rfl⟩
      exact ⟨_, checkInput_eq_ok_iff.2 hc, rfl⟩
  · rw [if_neg h, shiftedName, if_neg h]
    simp only [pure, Except.pure, Except.ok.injEq, h]
    simp [eq_comm]

theorem shiftedCopies_eq_ok_iff {affecting : List String} {l : List (String × List String)} :
    v.shiftedCopies name inputs affecting = .ok l ↔
      (∀ shift ∈ shiftsOf affecting, ∀ c ∈ inputs, v.registry.affects shift.1 c = true →
        v.table.kindOf? (variationColumn c shift.1 shift.2) = some .scalar) ∧
      l = (shiftsOf affecting).map fun shift =>
        (variationColumn name shift.1 shift.2, inputs.map (v.shiftedName shift.1 shift.2)) := by
  refine mapM_except_eq_ok_map_iff fun shift b => ?_
  refine bind_except_eq_ok_iff.trans ?_
  simp only [shiftedInputs_eq_ok_iff, pure, Except.pure, Except.ok.injEq]
  constructor
  · rintro ⟨l, ⟨hall, rfl⟩, rfl⟩
    exact ⟨hall, rfl⟩
  · rintro ⟨hall, rfl⟩
    exact ⟨_, ⟨hall, rfl⟩, rfl⟩

theorem forM_free_eq_ok_iff {names : List String} :
    (names.forM fun c => if v.table.hasColumn c then throw (.duplicateColumn c) else pure ()) =
      (.ok () : Except Error Unit) ↔ ∀ c ∈ names, v.table.idOf? c = none := by
  rw [forM_except_eq_ok_iff]
  refine forall₂_congr fun c _ => ?_
  rw [← EventTable.hasColumn_eq_false_iff]
  cases v.table.hasColumn c with
  | false => simp [pure, Except.pure]
  | true => simp [throw, throwThe, MonadExceptOf.throw]

/-- When a definition goes through: every input and every shifted copy of an affected input is a
scalar column, and the names of the column and its copies are free. -/
structure Plannable (v : VariedTable α) (e : Definition) : Prop where
  inputs : ∀ c ∈ e.inputs, v.table.kindOf? c = some .scalar
  shifted : ∀ s d, ∀ c ∈ e.inputs, v.registry.affects s c = true →
    v.table.kindOf? (variationColumn c s d) = some .scalar
  free : ∀ f ∈ v.withCopies e, v.table.idOf? f.name = none

/-- A definition is planned together with its copies. -/
theorem planDefinition_eq_ok_iff {e : Definition}
    {plan : List String × List (String × List String)} :
    v.planDefinition e.name e.inputs = .ok plan ↔
      v.Plannable e ∧ plan = (v.affectingAny e.inputs, (shiftsOf (v.affectingAny e.inputs)).map
        fun shift => ((v.copyOf e shift).name, (v.copyOf e shift).inputs)) := by
  have haffecting : ∀ s d, ∀ c ∈ e.inputs, v.registry.affects s c = true →
      (s, d) ∈ shiftsOf (v.affectingAny e.inputs) := fun s d c hc h =>
    mem_shiftsOf.2 (mem_affectingAny.2 ⟨c, hc, h⟩)
  have hnames : e.name :: ((shiftsOf (v.affectingAny e.inputs)).map fun shift =>
      (variationColumn e.name shift.1 shift.2,
        e.inputs.map (v.shiftedName shift.1 shift.2))).map Prod.fst =
          (v.withCopies e).map Definition.name := by
    rw [withCopies, List.map_cons, List.map_map, List.map_map]
    rfl
  refine bind_except_eq_ok_iff.trans ?_
  constructor
  · rintro ⟨⟨⟩, hin, hrest⟩
    obtain ⟨copies, hcopies, hrest⟩ := bind_except_eq_ok_iff.1 hrest
    obtain ⟨⟨⟩, hfree, hplan⟩ := bind_except_eq_ok_iff.1 hrest
    obtain ⟨hshifted, rfl⟩ := shiftedCopies_eq_ok_iff.1 hcopies
    cases hplan
    have hfree := forM_free_eq_ok_iff.1 hfree
    rw [hnames] at hfree
    exact ⟨⟨fun c hc => checkInput_eq_ok_iff.1 (forM_except_eq_ok_iff.1 hin c hc),
      fun s d c hc h => hshifted (s, d) (haffecting s d c hc h) c hc h,
      fun f hf => hfree f.name (List.mem_map_of_mem hf)⟩, rfl⟩
  · rintro ⟨⟨hin, hshifted, hfree⟩, rfl⟩
    refine ⟨(), forM_except_eq_ok_iff.2 fun c hc => checkInput_eq_ok_iff.2 (hin c hc), ?_⟩
    refine bind_except_eq_ok_iff.2 ⟨_, shiftedCopies_eq_ok_iff.2
      ⟨fun shift _ c hc h => hshifted shift.1 shift.2 c hc h, rfl⟩, ?_⟩
    refine bind_except_eq_ok_iff.2 ⟨(), forM_free_eq_ok_iff.2 ?_, rfl⟩
    rw [hnames]
    intro n hn
    obtain ⟨f, hf, rfl⟩ := List.mem_map.1 hn
    exact hfree f hf

theorem nodup_withCopies (h : v.registry.systematics.Nodup) (e : Definition) :
    ((v.withCopies e).map Definition.name).Nodup := by
  rw [withCopies, List.map_cons, List.map_map]
  exact nodup_shiftedNames (nodup_shiftsOf (h.filter _))

/-- A definition that goes through reads scalar columns, and so do its copies. -/
theorem Plannable.kindOf? {e : Definition} (h : v.Plannable e) :
    ∀ f ∈ v.withCopies e, ∀ c ∈ f.inputs, v.table.kindOf? c = some .scalar := by
  intro f hf c hc
  rcases List.mem_cons.1 hf with rfl | hf
  · exact h.inputs c hc
  · obtain ⟨shift, -, rfl⟩ := List.mem_map.1 hf
    obtain ⟨c', hc', rfl⟩ := List.mem_map.1 hc
    rw [shiftedName]
    split_ifs with haff
    · exact h.shifted _ _ c' hc' haff
    · exact h.inputs c' hc'

/-- A definition that goes through adds the column and its copies, and then registers the column. -/
theorem define_of_plannable {e : Definition} (hp : v.Plannable e) :
    define e.name e.kernel e.inputs v = (do
      expand (v.withCopies e) (v.affectingAny e.inputs) e.name
      return v.affectingAny e.inputs : Step (VariedTable α) (List String)) v := by
  have hplan : Step.ask (fun v => v.planDefinition e.name e.inputs) v = .ok _ v :=
    Step.ask_eq_ok (planDefinition_eq_ok_iff.2 ⟨hp, rfl⟩)
  refine (Step.bind_of_eq_ok hplan).trans ?_
  rw [expand, withCopies]
  simp only [List.forM_eq_forM, List.forM_cons, List.forM_map, bind_assoc]
  rfl

/-- A definition that goes through adds the column with its copies, and registers it for the
systematics that affect an input; any other definition changes nothing. -/
theorem define_eq (h : v.registry.systematics.Nodup) (e : Definition) :
    (∃ t, v.Plannable e ∧ v.table.Added (v.withCopies e) t ∧
      define e.name e.kernel e.inputs v = .ok (v.affectingAny e.inputs)
        ⟨t, (v.affectingAny e.inputs).foldl (fun r s => r.register s [e.name]) v.registry⟩) ∨
    ∃ fault, ¬v.Plannable e ∧ define e.name e.kernel e.inputs v = .error fault v := by
  cases hplan : v.planDefinition e.name e.inputs with
  | error fault =>
    refine .inr ⟨fault, fun hp => ?_, ?_⟩
    · have := planDefinition_eq_ok_iff.2 ⟨hp, rfl⟩
      rw [hplan] at this
      cases this
    · unfold define
      change EStateM.bind (Step.ask _) _ v = _
      rw [EStateM.bind, Step.ask, hplan]
  | ok plan =>
    obtain ⟨hp, -⟩ := planDefinition_eq_ok_iff.1 hplan
    obtain ⟨t, hadded, hexpand⟩ :=
      expand_eq_ok (v.affectingAny e.inputs) e.name hp.free (nodup_withCopies h e) hp.kindOf?
    refine .inl ⟨t, hp, hadded, ?_⟩
    rw [define_of_plannable hp]
    exact Step.bind_eq_ok_iff.2 ⟨(), _, hexpand, rfl⟩

/-! ## The catalog -/

/-- The index columns as definitions: each holds its position. -/
def indexDefinitions (v : VariedTable α) (base : String) : List Definition :=
  (v.indexColumns base).zipIdx.map fun c => ⟨c.1, .constant c.2.toUInt64.toFloat, []⟩

/-- Index columns read nothing. -/
theorem inputs_of_mem_indexDefinitions (v : VariedTable α) (base : String) :
    ∀ d ∈ v.indexDefinitions base, ∀ c ∈ d.inputs, v.table.kindOf? c = some .scalar := by
  intro d hd c hc
  obtain ⟨i, -, rfl⟩ := List.mem_map.1 hd
  cases hc

theorem indexColumns_eq (v : VariedTable α) (base : String) :
    v.indexColumns base = base :: (shiftsOf v.registry.systematics).map fun shift =>
      variationColumn base shift.1 shift.2 := by
  rw [indexColumns, shiftsOf, List.map_flatMap]
  rfl

theorem map_name_indexDefinitions (v : VariedTable α) (base : String) :
    (v.indexDefinitions base).map Definition.name = v.indexColumns base := by
  rw [indexDefinitions, List.map_map]
  exact List.zipIdx_map_fst 0 _

theorem variationColumn_mem_indexColumns {base s : String} (hs : s ∈ v.registry.systematics)
    (d : Direction) : variationColumn base s d ∈ v.indexColumns base := by
  rw [indexColumns_eq]
  exact List.mem_cons_of_mem _ (List.mem_map.2 ⟨(s, d), mem_shiftsOf.2 hs, rfl⟩)

theorem kindOf?_of_mem_indexColumns {base c : String} {t : EventTable α}
    (ht : v.table.Added (v.indexDefinitions base) t) (hc : c ∈ v.indexColumns base) :
    t.kindOf? c = some .scalar := by
  rw [← map_name_indexDefinitions] at hc
  obtain ⟨e, he, rfl⟩ := List.mem_map.1 hc
  have hkind := (ht.defines e he).kindOf?
  obtain ⟨i, -, rfl⟩ := List.mem_map.1 he
  exact hkind

/-- A catalog that is built adds its index columns, and then registers the base for every
systematic. -/
theorem buildCatalog_of_free {base : String}
    (hfree : ∀ c ∈ v.indexColumns base, v.table.idOf? c = none) :
    buildCatalog base v = (do
      expand (v.indexDefinitions base) v.registry.systematics base
      return variationLabels v.registry.systematics : Step (VariedTable α) (List String)) v := by
  have hnone : (v.indexColumns base).find? v.table.hasColumn = none := by
    refine List.find?_eq_none.2 fun c hc => ?_
    rw [EventTable.hasColumn_eq_false_iff.2 (hfree c hc)]
    exact Bool.false_ne_true
  unfold buildCatalog
  change EStateM.bind EStateM.get _ v = _
  rw [EStateM.bind, EStateM.get]
  dsimp only
  rw [hnone, expand, indexDefinitions]
  simp only [List.forM_eq_forM, List.forM_map, bind_assoc]

/-- A catalog is built if the names of its index columns are free, and nothing is changed
otherwise. -/
theorem buildCatalog_eq (h : v.registry.systematics.Nodup) (base : String) :
    (∃ t, (∀ c ∈ v.indexColumns base, v.table.idOf? c = none) ∧
      v.table.Added (v.indexDefinitions base) t ∧
      buildCatalog base v = .ok (variationLabels v.registry.systematics)
        ⟨t, v.registry.systematics.foldl (fun r s => r.register s [base]) v.registry⟩) ∨
    ∃ fault, ¬(∀ c ∈ v.indexColumns base, v.table.idOf? c = none) ∧
      buildCatalog base v = .error fault v := by
  cases htaken : (v.indexColumns base).find? v.table.hasColumn with
  | some taken =>
    refine .inr ⟨.duplicateColumn taken, fun hfree => ?_, ?_⟩
    · have hno := EventTable.hasColumn_eq_false_iff.2
        (hfree taken (List.mem_of_find?_eq_some htaken))
      rw [List.find?_some htaken] at hno
      cases hno
    · unfold buildCatalog
      change EStateM.bind EStateM.get _ v = _
      rw [EStateM.bind, EStateM.get]
      dsimp only
      rw [htaken]
      rfl
  | none =>
    have hfree : ∀ c ∈ v.indexColumns base, v.table.idOf? c = none := fun c hc =>
      EventTable.hasColumn_eq_false_iff.1 (by simpa using List.find?_eq_none.1 htaken c hc)
    obtain ⟨t, hadded, hexpand⟩ := expand_eq_ok v.registry.systematics base
      (fun d hd => hfree d.name (map_name_indexDefinitions v base ▸ List.mem_map_of_mem hd))
      (by
        rw [map_name_indexDefinitions, indexColumns_eq]
        exact nodup_shiftedNames (nodup_shiftsOf h))
      (inputs_of_mem_indexDefinitions v base)
    refine .inl ⟨t, hfree, hadded, ?_⟩
    rw [buildCatalog_of_free hfree]
    exact Step.bind_eq_ok_iff.2 ⟨(), _, hexpand, rfl⟩

end VariedTable

end VariHist
