import Mathlib
import VariHist.Proofs.Systematics.Operations
import VariHist.Proofs.Systematics.Outcomes
import VariHist.Proofs.Table.Growth

/-!
# Independent definitions commute

Two definitions of which neither reads what the other creates can be made in either order.  The
columns come to stand in other places and the names are registered at other times, but nothing that
can be asked by name tells the two results apart.

* `EventTable.Agree` — two tables with the same columns by name, of the same kinds and with the same
  values; `agree_of_added` — tables to which the same definitions were added, in whatever order.
* `VariedTable.Apart` — neither of two definitions reads what the other creates.
* `VariedTable.define_comm` — both go through in the other order, with the same answers.
-/

namespace VariHist

variable {α : Type}

namespace EventTable

variable {t t' t'' u w : EventTable α} {d : Definition} {ds ds' : List Definition} {name : String}
  {row : Nat}

/-! ## Adding definitions in another order -/

theorem Added.append (h : t.Added ds t') (h' : t'.Added ds' t'') : t.Added (ds ++ ds') t'' where
  ext := h.ext.trans h'.ext
  filters := h'.filters.trans h.filters
  defines e he := by
    rcases List.mem_append.1 he with he | he
    · exact (h.defines e he).extend h'.ext.toKeepsColumns
    · exact h'.defines e he
  free n := by rw [h'.free, h.free, List.map_append, List.mem_append, not_or, and_assoc]
  reachable ht := h'.reachable (h.reachable ht)

theorem Added.perm (h : t.Added ds t') (hds : ds'.Perm ds) : t.Added ds' t' where
  ext := h.ext
  filters := h.filters
  defines e he := h.defines e (hds.mem_iff.1 he)
  free n := by rw [h.free, (hds.map Definition.name).mem_iff]
  reachable ht := h.reachable ht

/-- What is not added is of the kind that it was of before, if it was there. -/
theorem Added.kindOf?_eq (h : t.Added ds t') (hname : name ∉ ds.map Definition.name) :
    t'.kindOf? name = t.kindOf? name := by
  cases hid : t.idOf? name with
  | none =>
    have hid' := (h.free name).2 ⟨hid, hname⟩
    rw [EventTable.kindOf?_eq, EventTable.kindOf?_eq, hid, hid']
    rfl
  | some id =>
    obtain ⟨c, hc, -⟩ := exists_of_idOf? hid
    have hkind : t.kindOf? name = some c.kind := by
      rw [EventTable.kindOf?_eq, hid, Option.bind_some, kindIn, hc, Option.map_some]
    rw [hkind]
    exact h.ext.kindOf? hkind

/-- Columns that are added change no value. -/
theorem evaluate_of_keepsColumns (h : t.KeepsColumns t') (hc : InputsBefore t.columns)
    (hc' : InputsBefore t'.columns) {id : Nat} (hid : t.idOf? name = some id) :
    t'.evaluate name row = t.evaluate name row := by
  obtain ⟨c, hcol, -⟩ := exists_of_idOf? hid
  have hk : t.idOfKind c.kind name = .ok id := by
    refine idOfKind_eq_ok_iff.2 ⟨hid, ?_⟩
    rw [kindIn, hcol, Option.map_some]
  have hlt := kindIn_eq_some_lt (idOfKind_eq_ok_iff.1 hk).2
  rw [evaluate_eq hc hk, evaluate_eq hc' (h.idOfKind hk)]
  cases c.kind with
  | scalar => rw [valueOn, valueOn, scalarOn_of_keepsColumns h hc hlt]
  | vector => rw [valueOn, valueOn, vectorOn_of_keepsColumns h hc hlt]

/-- A column that is added holds what its kernel makes of values of the table at hand. -/
theorem Added.evaluate (h : t.Added ds t') (hc : InputsBefore t.columns)
    (hc' : InputsBefore t'.columns) (hd : d ∈ ds)
    (hin : ∀ c ∈ d.inputs, t.kindOf? c = some .scalar) (row : Nat) :
    t'.evaluate d.name row = some (d.kernel.apply (d.inputs.map (t.numberOn row))) := by
  rw [(h.defines d hd).evaluate hc' row]
  refine congrArg (fun xs => some (d.kernel.apply xs)) (List.map_congr_left fun c hmem => ?_)
  exact numberOn_of_keepsColumns h.ext.toKeepsColumns hc hc' (hin c hmem)

/-- Two tables with the same columns by name, of the same kinds and with the same values. -/
structure Agree (u w : EventTable α) : Prop where
  names : ∀ n, n ∈ w.columnNames ↔ n ∈ u.columnNames
  kinds : ∀ n, w.kindOf? n = u.kindOf? n
  values : ∀ n row, w.evaluate n row = u.evaluate n row

/-- Tables to which the same definitions were added agree, in whatever order that was done.  A
column was there before, or is one of those that were added, or is in neither table. -/
theorem agree_of_added (ht : InputsBefore t.columns) (hu : InputsBefore u.columns)
    (hw : InputsBefore w.columns) (hin : ∀ d ∈ ds, ∀ c ∈ d.inputs, t.kindOf? c = some .scalar)
    (h : t.Added ds u) (h' : t.Added ds w) : u.Agree w where
  names n := by
    rw [← not_iff_not, ← idOf?_eq_none_iff, ← idOf?_eq_none_iff, h.free, h'.free]
  kinds n := by
    by_cases hn : n ∈ ds.map Definition.name
    · obtain ⟨d, hd, rfl⟩ := List.mem_map.1 hn
      rw [(h.defines d hd).kindOf?, (h'.defines d hd).kindOf?]
    · rw [h.kindOf?_eq hn, h'.kindOf?_eq hn]
  values n row := by
    by_cases hn : n ∈ ds.map Definition.name
    · obtain ⟨d, hd, rfl⟩ := List.mem_map.1 hn
      rw [h.evaluate ht hu hd (hin d hd), h'.evaluate ht hw hd (hin d hd)]
    · cases hid : t.idOf? n with
      | none =>
        rw [EventTable.evaluate, EventTable.evaluate, (h.free n).2 ⟨hid, hn⟩,
          (h'.free n).2 ⟨hid, hn⟩]
        rfl
      | some id =>
        rw [evaluate_of_keepsColumns h.ext.toKeepsColumns ht hu hid,
          evaluate_of_keepsColumns h'.ext.toKeepsColumns ht hw hid]

end EventTable

namespace VariedTable

open EventTable

variable {v v₁ v₂ : VariedTable α} {e e' : Definition}

/-! ## What a definition reads and creates -/

/-- The columns that a definition creates: its own and the shifted copies. -/
def created (v : VariedTable α) (e : Definition) : List String :=
  (v.withCopies e).map Definition.name

/-- The columns that a definition reads: its inputs, and their copies under the shifts that affect
them. -/
def read (v : VariedTable α) (e : Definition) : List String :=
  (v.withCopies e).flatMap Definition.inputs

/-- Neither of two definitions reads a column that the other one creates. -/
def Apart (v : VariedTable α) (e e' : Definition) : Prop :=
  (∀ n ∈ v.created e, n ∉ v.read e') ∧ ∀ n ∈ v.created e', n ∉ v.read e

instance (v : VariedTable α) (e e' : Definition) : Decidable (v.Apart e e') :=
  inferInstanceAs (Decidable (_ ∧ _))

theorem name_mem_created (v : VariedTable α) (e : Definition) : e.name ∈ v.created e :=
  List.mem_cons_self

theorem mem_read_of_input {c : String} (hc : c ∈ e.inputs) : c ∈ v.read e :=
  List.mem_flatMap.2 ⟨e, List.mem_cons_self, hc⟩

theorem mem_read_of_affects {c s : String} (hc : c ∈ e.inputs) (h : v.registry.affects s c = true)
    (d : Direction) : variationColumn c s d ∈ v.read e := by
  refine List.mem_flatMap.2 ⟨v.copyOf e (s, d), List.mem_cons_of_mem _ (List.mem_map_of_mem
    (mem_shiftsOf.2 (mem_affectingAny.2 ⟨c, hc, h⟩))), List.mem_map.2 ⟨c, hc, ?_⟩⟩
  rw [shiftedName, if_pos h]

/-! ## A definition after another one -/

/-- A definition went through: its columns were added, and its name was registered. -/
structure Defined (v : VariedTable α) (e : Definition) (v' : VariedTable α) : Prop where
  plannable : v.Plannable e
  added : v.table.Added (v.withCopies e) v'.table
  registry : v'.registry =
    (v.affectingAny e.inputs).foldl (fun r s => r.register s [e.name]) v.registry

/-- A definition that can be planned goes through. -/
theorem exists_define (hp : v.Plannable e) :
    ∃ v', define e.name e.kernel e.inputs v = .ok (v.affectingAny e.inputs) v' ∧
      v.Defined e v' := by
  obtain ⟨t, -, hadded, hdef⟩ | ⟨fault, hrefused, -⟩ := define_eq v.registry.nodup_systematics e
  · exact ⟨_, hdef, hp, hadded, rfl⟩
  · exact absurd hp hrefused

theorem defined_of_define {answer : List String}
    (h : define e.name e.kernel e.inputs v = .ok answer v₁) :
    answer = v.affectingAny e.inputs ∧ v.Defined e v₁ := by
  obtain ⟨t, hp, hadded, hdef⟩ | ⟨fault, -, hdef⟩ := define_eq v.registry.nodup_systematics e
  · rw [hdef] at h
    cases h
    exact ⟨rfl, hp, hadded, rfl⟩
  · rw [hdef] at h
    cases h

namespace Defined

variable {s c : String}

theorem affects_iff (h : v.Defined e v₁) : v₁.registry.affects s c = true ↔
    v.registry.affects s c = true ∨ s ∈ v.affectingAny e.inputs ∧ c = e.name := by
  rw [h.registry, Registry.affects_foldl_register, List.mem_singleton]

theorem systematics (h : v.Defined e v₁) :
    v₁.registry.systematics = v.registry.systematics := by
  rw [h.registry]
  exact Registry.systematics_foldl_register fun s hs => (List.mem_filter.1 hs).1

theorem affects_of_ne (h : v.Defined e v₁) (hc : c ≠ e.name) :
    v₁.registry.affects s c = v.registry.affects s c := by
  rw [Bool.eq_iff_iff, h.affects_iff]
  exact or_iff_left fun hnew => hc hnew.2

/-- A definition changes nothing in what affects the inputs of one that does not read it. -/
theorem affects_of_input (h : v.Defined e v₁) (hapart : ∀ n ∈ v.created e, n ∉ v.read e')
    (hc : c ∈ e'.inputs) : v₁.registry.affects s c = v.registry.affects s c := by
  refine h.affects_of_ne ?_
  rintro rfl
  exact hapart e.name (name_mem_created v e) (mem_read_of_input hc)

theorem affectingAny_eq (h : v.Defined e v₁) (hapart : ∀ n ∈ v.created e, n ∉ v.read e') :
    v₁.affectingAny e'.inputs = v.affectingAny e'.inputs := by
  rw [affectingAny, affectingAny, h.systematics]
  refine List.filter_congr fun s _ => ?_
  rw [Bool.eq_iff_iff, List.any_eq_true, List.any_eq_true]
  exact exists_congr fun c => and_congr_right fun hc => by rw [h.affects_of_input hapart hc]

/-- So the other definition brings the same copies along. -/
theorem withCopies_eq (h : v.Defined e v₁) (hapart : ∀ n ∈ v.created e, n ∉ v.read e') :
    v₁.withCopies e' = v.withCopies e' := by
  rw [withCopies, withCopies, h.affectingAny_eq hapart]
  refine congrArg (e' :: ·) (List.map_congr_left fun shift _ => ?_)
  exact copyOf_congr fun c hc => h.affects_of_input hapart hc

/-- What can be defined after a definition that it does not read can be defined before. -/
theorem plannable_before (h : v.Defined e v₁) (hapart : ∀ n ∈ v.created e, n ∉ v.read e')
    (hp : v₁.Plannable e') : v.Plannable e' where
  inputs c hc := by
    rw [← h.added.kindOf?_eq fun hnew => hapart c hnew (mem_read_of_input hc)]
    exact hp.inputs c hc
  shifted s d c hc haff := by
    rw [← h.added.kindOf?_eq fun hnew => hapart _ hnew (mem_read_of_affects hc haff d)]
    exact hp.shifted s d c hc ((h.affects_of_input hapart hc).trans haff)
  free f hf := by
    rw [← h.withCopies_eq hapart] at hf
    exact ((h.added.free f.name).1 (hp.free f hf)).1

/-- What can be defined before can be defined after, if the names are still free. -/
theorem plannable_after (h : v.Defined e v₁) (hapart : ∀ n ∈ v.created e, n ∉ v.read e')
    (hnew : ∀ n ∈ v.created e', n ∉ v.created e) (hp : v.Plannable e') : v₁.Plannable e' where
  inputs c hc := h.added.ext.kindOf? (hp.inputs c hc)
  shifted s d c hc haff :=
    h.added.ext.kindOf? (hp.shifted s d c hc ((h.affects_of_input hapart hc).symm.trans haff))
  free f hf := by
    rw [h.withCopies_eq hapart] at hf
    exact (h.added.free f.name).2 ⟨hp.free f hf, hnew f.name (List.mem_map_of_mem hf)⟩

/-- The columns of two definitions that went through one after the other. -/
theorem added_both (h : v.Defined e v₁) (h' : v₁.Defined e' v₂)
    (hapart : ∀ n ∈ v.created e, n ∉ v.read e') :
    v.table.Added (v.withCopies e ++ v.withCopies e') v₂.table := by
  have hadded := h'.added
  rw [h.withCopies_eq hapart] at hadded
  exact h.added.append hadded

/-- The pairs of two definitions that went through one after the other. -/
theorem affects_both_iff (h : v.Defined e v₁) (h' : v₁.Defined e' v₂)
    (hapart : ∀ n ∈ v.created e, n ∉ v.read e') : v₂.registry.affects s c = true ↔
      v.registry.affects s c = true ∨ (s ∈ v.affectingAny e.inputs ∧ c = e.name) ∨
        s ∈ v.affectingAny e'.inputs ∧ c = e'.name := by
  rw [h'.affects_iff, h.affects_iff, h.affectingAny_eq hapart, or_assoc]

end Defined

/-- Independent definitions commute.  If neither of two definitions reads a column that the other one
creates, and they go through in one order, then they go through in the other order, each with the
same answer.  The two tables have the same columns, of the same kinds and with the same values on
every row; the two registries say the same about every systematic and every column, and list the
systematics in the same order. -/
theorem define_comm [Aggregation α] {v₁₂ : VariedTable α} {answer answer' : List String}
    (hv : v.table.Reachable) (hapart : v.Apart e e')
    (h₁ : define e.name e.kernel e.inputs v = .ok answer v₁)
    (h₁₂ : define e'.name e'.kernel e'.inputs v₁ = .ok answer' v₁₂) :
    ∃ v₂ v₂₁, define e'.name e'.kernel e'.inputs v = .ok answer' v₂ ∧
      define e.name e.kernel e.inputs v₂ = .ok answer v₂₁ ∧
      v₁₂.table.Agree v₂₁.table ∧
      (∀ s c, v₂₁.registry.affects s c = v₁₂.registry.affects s c) ∧
      v₂₁.registry.systematics = v₁₂.registry.systematics := by
  obtain ⟨hout, hin⟩ := hapart
  obtain ⟨rfl, hdef₁⟩ := defined_of_define h₁
  obtain ⟨rfl, hdef₁₂⟩ := defined_of_define h₁₂
  -- the second definition can come first
  have hp' : v.Plannable e' := hdef₁.plannable_before hout hdef₁₂.plannable
  obtain ⟨v₂, h₂, hdef₂⟩ := exists_define hp'
  -- and it does not take the names of the other one
  have hnew : ∀ n ∈ v.created e, n ∉ v.created e' := by
    intro n hn hn'
    rw [created, ← hdef₁.withCopies_eq hout] at hn'
    obtain ⟨f, hf, rfl⟩ := List.mem_map.1 hn'
    exact ((hdef₁.added.free f.name).1 (hdef₁₂.plannable.free f hf)).2 hn
  obtain ⟨v₂₁, h₂₁, hdef₂₁⟩ :=
    exists_define (hdef₂.plannable_after hin hnew hdef₁.plannable)
  rw [hdef₂.affectingAny_eq hin] at h₂₁
  refine ⟨v₂, v₂₁, by rwa [hdef₁.affectingAny_eq hout], h₂₁, ?_, fun s c => ?_, ?_⟩
  · have hadded := hdef₁.added_both hdef₁₂ hout
    have hadded' := (hdef₂.added_both hdef₂₁ hin).perm List.perm_append_comm
    refine agree_of_added hv.wellFormed.inputs (hadded.reachable hv).wellFormed.inputs
      (hadded'.reachable hv).wellFormed.inputs (fun d hd => ?_) hadded hadded'
    rcases List.mem_append.1 hd with hd | hd
    · exact hdef₁.plannable.kindOf? d hd
    · exact hp'.kindOf? d hd
  · rw [Bool.eq_iff_iff, hdef₂.affects_both_iff hdef₂₁ hin, hdef₁.affects_both_iff hdef₁₂ hout,
      or_comm (a := s ∈ v.affectingAny e'.inputs ∧ _)]
  · rw [hdef₂₁.systematics, hdef₂.systematics, hdef₁₂.systematics, hdef₁.systematics]

theorem shiftedNumber_reachable : shiftedNumber.table.Reachable := by
  have hx : (⟨1, 0, #[⟨"x", .stored #[1]⟩], [], [], [], 0⟩ : EventTable Recorder).Reachable :=
    (EventTable.Reachable.ofRows 1).addColumn "x" #[1]
      (addColumn_eq_ok_iff.2 ⟨rfl, by decide +kernel, rfl⟩)
  have hup : (⟨1, 0, #[⟨"x", .stored #[1]⟩, ⟨"x_SUp", .stored #[2]⟩], [], [], [], 0⟩ :
      EventTable Recorder).Reachable :=
    hx.addColumn "x_SUp" #[2] (addColumn_eq_ok_iff.2 ⟨rfl, by decide +kernel, rfl⟩)
  exact hup.addColumn "x_SDown" #[0] (addColumn_eq_ok_iff.2 ⟨rfl, by decide +kernel, rfl⟩)

/-- Two definitions that read the same shifted column. -/
theorem define_comm_of_shiftedNumber :
    ∃ v₁ v₁₂ v₂ v₂₁ : VariedTable Recorder,
      shiftedNumber.table.Reachable ∧
      shiftedNumber.Apart ⟨"y", .scalar List.sum, ["x"]⟩ ⟨"z", .concat, ["x"]⟩ ∧
      define "y" (.scalar List.sum) ["x"] shiftedNumber = .ok ["S"] v₁ ∧
      define "z" .concat ["x"] v₁ = .ok ["S"] v₁₂ ∧
      define "z" .concat ["x"] shiftedNumber = .ok ["S"] v₂ ∧
      define "y" (.scalar List.sum) ["x"] v₂ = .ok ["S"] v₂₁ ∧
      v₁₂.table.Agree v₂₁.table ∧
      v₂₁.registry.affects "S" "z" = v₁₂.registry.affects "S" "z" := by
  have hapart : shiftedNumber.Apart ⟨"y", .scalar List.sum, ["x"]⟩ ⟨"z", .concat, ["x"]⟩ := by
    decide +kernel
  have h₁ := Step.eq_ok_of_answer
    (by cbv : (define "y" (.scalar List.sum) ["x"]).answer shiftedNumber = .ok ["S"])
  have h₁₂ := Step.eq_ok_of_answer (by cbv : (define "z" .concat ["x"]).answer
    ((define "y" (.scalar List.sum) ["x"]).stateAfter shiftedNumber) = .ok ["S"])
  obtain ⟨v₂, v₂₁, h₂, h₂₁, hagree, haffects, -⟩ :=
    define_comm shiftedNumber_reachable hapart h₁ h₁₂
  exact ⟨_, _, v₂, v₂₁, shiftedNumber_reachable, hapart, h₁, h₁₂, h₂, h₂₁, hagree,
    haffects "S" "z"⟩

end VariedTable

end VariHist
