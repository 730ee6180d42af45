import Mathlib
import VariHist.Proofs.Naming
import VariHist.Proofs.Systematics.Registering

/-!
# The registry after any sequence of calls

The registry keeps its pairs in two maps that are filled side by side and read by different
questions.  Here its answers are told from the calls alone.

* `affecting_eq` — the systematics of a column are the sublist of all systematics that affect it.
* `systematics_perform`, `affectedBy_perform`, `affects_perform` — what one call adds; by induction,
  what a sequence of calls adds.
* `perform_eq_self` — a call that says nothing new changes nothing.
* `registry_of_calls` — the answers after every sequence of calls.
-/

namespace VariHist

open NameMap

/-! ## Inserting a list -/

namespace NameMap

variable {l acc : List String} {a : String} {m : NameMap} {key name : String}

theorem insertNew_eraseDups : insertNew l.eraseDups a = (l ++ [a]).eraseDups := by
  rw [List.eraseDups_append, insertNew]
  by_cases h : a ∈ l
  · rw [if_pos (List.contains_iff_mem.2 (List.mem_eraseDups.2 h))]
    simp [List.removeAll, h]
  · rw [if_neg (mt List.contains_iff_mem.1 (mt List.mem_eraseDups.1 h))]
    simp [List.removeAll, List.eraseDups_cons, h]

theorem foldl_insertNew_eraseDups {l' : List String} :
    l'.foldl insertNew l.eraseDups = (l ++ l').eraseDups := by
  induction l' generalizing l with
  | nil => rw [List.foldl_nil, List.append_nil]
  | cons a l' ih => rw [List.foldl_cons, insertNew_eraseDups, ih, List.append_assoc]; rfl

/-- Inserting a list one by one leaves each element where it stands first. -/
theorem foldl_insertNew_nil : l.foldl insertNew [] = l.eraseDups :=
  foldl_insertNew_eraseDups (l := [])

theorem mem_foldl_insertNew : a ∈ l.foldl insertNew acc ↔ a ∈ acc ∨ a ∈ l := by
  induction l generalizing acc with
  | nil => simp
  | cons b l ih => rw [List.foldl_cons, ih, mem_insertNew, List.mem_cons, or_assoc]

theorem foldl_insertNew_of_subset (h : ∀ a ∈ l, a ∈ acc) : l.foldl insertNew acc = acc := by
  induction l with
  | nil => rfl
  | cons b l ih =>
    rw [List.foldl_cons, insertNew, if_pos (List.contains_iff_mem.2 (h b List.mem_cons_self))]
    exact ih fun a ha => h a (List.mem_cons_of_mem b ha)

theorem foldl_insertNew_twice : l.foldl insertNew (l.foldl insertNew acc) = l.foldl insertNew acc :=
  foldl_insertNew_of_subset fun _ ha => mem_foldl_insertNew.2 (Or.inr ha)

theorem lookup_of_mem {entries : List (String × List String)} {e : String × List String}
    (hnd : (entries.map Prod.fst).Nodup) (he : e ∈ entries) : entries.lookup e.1 = some e.2 := by
  induction entries with
  | nil => cases he
  | cons e' entries ih =>
    rw [List.map_cons, List.nodup_cons] at hnd
    rcases List.mem_cons.1 he with rfl | he
    · rw [List.lookup_cons_self]
    · have hne : (e.1 == e'.1) = false := by
        refine beq_false_of_ne fun heq => hnd.1 ?_
        rw [← heq]
        exact List.mem_map_of_mem he
      rw [List.lookup_cons, hne]
      exact ih hnd.2 he

theorem names_of_mem {e : String × List String} (he : e ∈ m.entries) : m.names e.1 = e.2 := by
  rw [names, lookup_of_mem m.distinctKeys he]
  rfl

theorem nodup_names (m : NameMap) (key : String) : (m.names key).Nodup := by
  by_cases h : key ∈ m.keys
  · obtain ⟨e, he, rfl⟩ := List.mem_map.1 h
    rw [names_of_mem he]
    exact m.distinctNames e he
  · rw [names_eq_nil h]
    exact List.nodup_nil

theorem addKey_eq_self (h : key ∈ m.keys) : m.addKey key = m :=
  dif_pos (hasKey_iff.2 h)

/-- Inserting what is there changes nothing. -/
theorem insert_eq_self (h : name ∈ m.names key) : m.insert key name = m := by
  have hkey : key ∈ m.keys := by
    by_contra hkey
    rw [names_eq_nil hkey] at h
    cases h
  have hentries : (m.entries.map fun e =>
      if e.1 = key then (e.1, insertNew e.2 name) else e) = m.entries := by
    refine (List.map_congr_left fun e he => ?_).trans (List.map_id _)
    by_cases heq : e.1 = key
    · rw [if_pos heq, insertNew, if_pos]
      · rfl
      · rw [List.contains_iff_mem, ← names_of_mem he, heq]
        exact h
    · rw [if_neg heq]
      rfl
  rw [insert, addKey_eq_self hkey, addName]
  obtain ⟨entries, hkeys, hnames⟩ := m
  congr

end NameMap

namespace Registry

variable {r : Registry} {s s' c : String} {columns : List String}

/-! ## The systematics of a column -/

/-- The position of a systematic among all. -/
def position (r : Registry) (systematic : String) : Nat :=
  r.systematics.idxOf systematic

theorem affecting_eq_map :
    r.affecting c = (((r.byColumn.names c).map fun s => (r.position s, s)).mergeSort
      fun a b => a.1 ≤ b.1).map Prod.snd := by
  have hplaced : ((r.byColumn.names c).filterMap fun s =>
      (r.systematics.idxOf? s).map fun i => (i, s)) =
        (r.byColumn.names c).map fun s => (r.position s, s) := by
    rw [← List.filterMap_eq_map]
    refine List.filterMap_congr fun s hs => ?_
    have hmem : s ∈ r.systematics := mem_systematics_of_affects (affects_iff_mem.2 hs)
    obtain ⟨i, hi⟩ := Option.isSome_iff_exists.1 (List.isSome_idxOf?.2 hmem)
    rw [Function.comp_apply, position, List.idxOf_eq_getD_idxOf?, hi]
    rfl
  rw [affecting, hplaced]

theorem mem_affecting : s ∈ r.affecting c ↔ r.affects s c = true := by
  rw [affecting_eq_map, affects_iff_mem]
  simp

theorem nodup_affecting : (r.affecting c).Nodup := by
  rw [affecting_eq_map]
  have hperm := ((List.mergeSort_perm ((r.byColumn.names c).map fun s => (r.position s, s))
    fun a b => a.1 ≤ b.1).map Prod.snd)
  refine hperm.nodup_iff.2 ?_
  rw [List.map_map]
  exact (List.map_id _).symm ▸ nodup_names r.byColumn c

theorem pairwise_affecting :
    (r.affecting c).Pairwise fun s s' => r.position s ≤ r.position s' := by
  rw [affecting_eq_map, List.pairwise_map]
  have hsorted := List.pairwise_mergeSort' (fun a b : Nat × String => a.1 ≤ b.1)
    ((r.byColumn.names c).map fun s => (r.position s, s))
  refine hsorted.imp_of_mem fun {a b} ha hb hab => ?_
  rw [List.mem_mergeSort, List.mem_map] at ha hb
  obtain ⟨s, -, rfl⟩ := ha
  obtain ⟨s', -, rfl⟩ := hb
  exact hab

theorem pairwise_systematics :
    r.systematics.Pairwise fun s s' => r.position s ≤ r.position s' := by
  rw [List.pairwise_iff_getElem]
  intro i j hi hj hij
  rw [position, position, nodup_systematics.idxOf_getElem i hi,
    nodup_systematics.idxOf_getElem j hj]
  exact hij.le

/-- The systematics of a column are the sublist of all systematics that affect it. -/
theorem affecting_eq : r.affecting c = r.systematics.filter fun s => r.affects s c := by
  have hmem : ∀ s, s ∈ r.affecting c ↔ s ∈ r.systematics.filter fun s => r.affects s c := by
    intro s
    rw [mem_affecting, List.mem_filter]
    exact ⟨fun h => ⟨mem_systematics_of_affects h, h⟩, And.right⟩
  have hperm : (r.affecting c).Perm (r.systematics.filter fun s => r.affects s c) :=
    (List.perm_ext_iff_of_nodup nodup_affecting (nodup_systematics.filter _)).2 hmem
  refine hperm.eq_of_pairwise ?_ pairwise_affecting (pairwise_systematics.filter _)
  intro s s' hs _ hle hge
  exact (List.idxOf_inj (mem_systematics_of_affects (mem_affecting.1 hs))).1 (hle.antisymm hge)

/-! ## One call -/

theorem affectedBy_foldl_link :
    (columns.foldl (fun r c => r.link s c) r).affectedBy s' =
      if s' = s then columns.foldl insertNew (r.affectedBy s) else r.affectedBy s' := by
  induction columns generalizing r with
  | nil =>
    by_cases h : s' = s
    · rw [if_pos h, h]
      rfl
    · rw [if_neg h]
      rfl
  | cons c columns ih =>
    have hlink : ∀ s', (r.link s c).affectedBy s' =
        if s' = s then insertNew (r.affectedBy s) c else r.affectedBy s' :=
      fun s' => names_insert
    rw [List.foldl_cons, ih, hlink s, hlink s', if_pos rfl, List.foldl_cons]
    by_cases h : s' = s
    · rw [if_pos h, if_pos h]
    · rw [if_neg h, if_neg h, if_neg h]

theorem affectedBy_register :
    (r.register s columns).affectedBy s' =
      if s' = s then columns.foldl insertNew (r.affectedBy s) else r.affectedBy s' := by
  have hmention : ∀ s', (r.mention s).affectedBy s' = r.affectedBy s' := fun s' => names_addKey
  rw [register, affectedBy_foldl_link, hmention, hmention]

theorem link_eq_self (h : r.affects s c = true) : r.link s c = r := by
  have hby : r.bySystematic.insert s c = r.bySystematic := insert_eq_self (affects_iff.1 h)
  have hcol : r.byColumn.insert c s = r.byColumn := insert_eq_self (affects_iff_mem.1 h)
  rw [link]
  obtain ⟨bySystematic, byColumn, mirrored⟩ := r
  congr

/-- Registering what is known changes nothing. -/
theorem register_eq_self (hs : s ∈ r.systematics) (h : ∀ c ∈ columns, r.affects s c = true) :
    r.register s columns = r := by
  have hmention : r.mention s = r := by
    rw [mention]
    obtain ⟨bySystematic, byColumn, mirrored⟩ := r
    congr
    exact addKey_eq_self hs
  rw [register, hmention]
  induction columns with
  | nil => rfl
  | cons c columns ih =>
    rw [List.foldl_cons, link_eq_self (h c List.mem_cons_self)]
    exact ih fun c' hc' => h c' (List.mem_cons_of_mem c hc')

/-! ## The columns whose shifts are present -/

theorem filter_beforeSuffix?_eq_some_iff {x : String} :
    (beforeSuffix? ("_" ++ variationLabel s .up) x).filter (fun base => !base.isEmpty) = some c ↔
      x = variationColumn c s .up ∧ c ≠ "" := by
  rw [Option.filter_eq_some_iff, beforeSuffix?_eq_some_iff, variationColumn, labelledColumn,
    String.append_assoc]
  simp

/-- A column is found by its upward shift, unless it has no name. -/
theorem mem_shiftedIn : c ∈ shiftedIn s columns ↔ variationColumn c s .up ∈ columns ∧ c ≠ "" := by
  rw [shiftedIn, List.mem_filterMap]
  simp only [filter_beforeSuffix?_eq_some_iff]
  constructor
  · rintro ⟨x, hx, rfl, hc⟩
    exact ⟨hx, hc⟩
  · rintro ⟨hx, hc⟩
    exact ⟨_, hx, rfl, hc⟩

/-- The columns are found in the order of their upward shifts. -/
theorem sublist_map_shiftedIn :
    ((shiftedIn s columns).map fun c => variationColumn c s .up).Sublist columns := by
  induction columns with
  | nil => exact List.Sublist.slnil
  | cons x columns ih =>
    rw [shiftedIn, List.filterMap_cons]
    cases hx : (beforeSuffix? ("_" ++ variationLabel s .up) x).filter fun base => !base.isEmpty with
    | none => exact ih.cons x
    | some c =>
      obtain ⟨rfl, -⟩ := filter_beforeSuffix?_eq_some_iff.1 hx
      exact ih.cons_cons _

variable {systematics : List String}

theorem systematics_registerExisting :
    (r.registerExisting systematics columns).systematics =
      systematics.foldl insertNew r.systematics := by
  unfold registerExisting
  induction systematics generalizing r with
  | nil => rfl
  | cons s systematics ih => rw [List.foldl_cons, ih, systematics_register, List.foldl_cons]

theorem affectedBy_registerExisting :
    (r.registerExisting systematics columns).affectedBy s =
      (if s ∈ systematics then shiftedIn s columns else []).foldl insertNew (r.affectedBy s) := by
  unfold registerExisting
  induction systematics generalizing r with
  | nil => rfl
  | cons s' systematics ih =>
    -- a systematic that is asked for again finds its columns registered
    rw [List.foldl_cons, ih, affectedBy_register]
    by_cases h : s = s'
    · subst h
      by_cases hrest : s ∈ systematics
      · rw [if_pos rfl, if_pos hrest, if_pos List.mem_cons_self, foldl_insertNew_twice]
      · rw [if_pos rfl, if_neg hrest, if_pos List.mem_cons_self, List.foldl_nil]
    · rw [if_neg h]
      simp only [List.mem_cons, h, false_or]

theorem registerExisting_eq_self (hs : ∀ s ∈ systematics, s ∈ r.systematics)
    (h : ∀ s ∈ systematics, ∀ c ∈ shiftedIn s columns, r.affects s c = true) :
    r.registerExisting systematics columns = r := by
  unfold registerExisting
  induction systematics with
  | nil => rfl
  | cons s systematics ih =>
    rw [List.foldl_cons, register_eq_self (hs s List.mem_cons_self) (h s List.mem_cons_self)]
    exact ih (fun s' hs' => hs s' (List.mem_cons_of_mem s hs'))
      fun s' hs' => h s' (List.mem_cons_of_mem s hs')

end Registry

/-! ## Any sequence of calls -/

/-- The calls that register systematics. -/
inductive Registration where
  /-- Registers columns for a systematic. -/
  | explicit (systematic : String) (columns : List String)
  /-- Registers systematics for the shifted columns that exist. -/
  | existing (systematics columns : List String)

namespace Registration

open Registry

variable {r : Registry} {s c : String} {call : Registration}

/-- The registry after a call. -/
def perform (r : Registry) : Registration → Registry
  | .explicit systematic columns => r.register systematic columns
  | .existing systematics columns => r.registerExisting systematics columns

/-- The systematics that a call mentions. -/
def mentioned : Registration → List String
  | .explicit systematic _ => [systematic]
  | .existing systematics _ => systematics

/-- The columns that a call registers for a systematic, in their order. -/
def columnsFor (s : String) : Registration → List String
  | .explicit systematic columns => if s = systematic then columns else []
  | .existing systematics columns => if s ∈ systematics then shiftedIn s columns else []

/-- A call registers a column for a systematic: it says so, or it asks for the systematic's existing
shifts and the upward one of that column exists. -/
def Registers (s c : String) : Registration → Prop
  | .explicit systematic columns => s = systematic ∧ c ∈ columns
  | .existing systematics columns => s ∈ systematics ∧ variationColumn c s .up ∈ columns ∧ c ≠ ""

theorem mem_columnsFor : c ∈ call.columnsFor s ↔ call.Registers s c := by
  cases call with
  | explicit systematic columns =>
    rw [columnsFor, Registers]
    by_cases h : s = systematic <;> simp [h]
  | existing systematics columns =>
    rw [columnsFor, Registers, ← mem_shiftedIn]
    by_cases h : s ∈ systematics <;> simp [h]

theorem systematics_perform :
    (call.perform r).systematics = call.mentioned.foldl insertNew r.systematics := by
  cases call with
  | explicit systematic columns => exact systematics_register
  | existing systematics columns => exact systematics_registerExisting

theorem affectedBy_perform :
    (call.perform r).affectedBy s = (call.columnsFor s).foldl insertNew (r.affectedBy s) := by
  cases call with
  | explicit systematic columns =>
    show (r.register systematic columns).affectedBy s = _
    rw [affectedBy_register, columnsFor]
    by_cases h : s = systematic
    · rw [if_pos h, if_pos h, h]
    · rw [if_neg h, if_neg h, List.foldl_nil]
  | existing systematics columns => exact affectedBy_registerExisting

theorem affects_perform :
    (call.perform r).affects s c = true ↔ r.affects s c = true ∨ call.Registers s c := by
  rw [affects_iff, affects_iff, affectedBy_perform, mem_foldl_insertNew, mem_columnsFor]

/-- A call that says nothing new changes nothing. -/
theorem perform_eq_self (hs : ∀ s ∈ call.mentioned, s ∈ r.systematics)
    (h : ∀ s c, call.Registers s c → r.affects s c = true) : call.perform r = r := by
  cases call with
  | explicit systematic columns =>
    exact register_eq_self (hs systematic List.mem_cons_self) fun c hc => h systematic c ⟨rfl, hc⟩
  | existing systematics columns =>
    exact registerExisting_eq_self hs fun s hsyst c hc => h s c ⟨hsyst, mem_shiftedIn.1 hc⟩

/-- The registry after some calls. -/
def performAll (r : Registry) (calls : List Registration) : Registry :=
  calls.foldl (fun r call => call.perform r) r

theorem systematics_performAll {calls : List Registration} :
    (performAll r calls).systematics = (calls.flatMap mentioned).foldl insertNew r.systematics := by
  induction calls generalizing r with
  | nil => rfl
  | cons call calls ih =>
    rw [List.flatMap_cons, List.foldl_append, ← systematics_perform]
    exact ih

theorem affectedBy_performAll {calls : List Registration} :
    (performAll r calls).affectedBy s =
      (calls.flatMap (columnsFor s)).foldl insertNew (r.affectedBy s) := by
  induction calls generalizing r with
  | nil => rfl
  | cons call calls ih =>
    rw [List.flatMap_cons, List.foldl_append, ← affectedBy_perform]
    exact ih

/-- What affects a column after some calls did so before, or one of the calls registers it. -/
theorem affects_performAll {calls : List Registration} : (performAll r calls).affects s c = true ↔
    r.affects s c = true ∨ ∃ call ∈ calls, call.Registers s c := by
  induction calls generalizing r with
  | nil => simp [performAll]
  | cons call calls ih =>
    rw [List.exists_mem_cons_iff, ← or_assoc, ← affects_perform]
    exact ih

end Registration

open Registration in
/-- What the registry answers after any sequence of calls is told by the calls: the systematics in
the order in which they are mentioned first, the columns of each in the order in which they are
registered first, and for a column the systematics that affect it in the order of all systematics.
To repeat a call changes nothing. -/
theorem registry_of_calls (calls : List Registration) :
    (performAll .empty calls).systematics = (calls.flatMap mentioned).eraseDups ∧
    (∀ s c, (performAll .empty calls).affects s c = true ↔ ∃ call ∈ calls, call.Registers s c) ∧
    (∀ s, (performAll .empty calls).affectedBy s = (calls.flatMap (columnsFor s)).eraseDups) ∧
    (∀ s columns, ((Registry.shiftedIn s columns).map fun c => variationColumn c s .up).Sublist
      columns ∧ ∀ c, c ∈ Registry.shiftedIn s columns ↔
        variationColumn c s .up ∈ columns ∧ c ≠ "") ∧
    (∀ c, (performAll .empty calls).affecting c = (performAll .empty calls).systematics.filter
      fun s => (performAll .empty calls).affects s c) ∧
    (∀ s c, c ∈ (performAll .empty calls).affectedBy s ↔
      s ∈ (performAll .empty calls).affecting c) ∧
    ∀ call ∈ calls, call.perform (performAll .empty calls) = performAll .empty calls := by
  have hsystematics : (performAll .empty calls).systematics =
      (calls.flatMap mentioned).eraseDups :=
    systematics_performAll.trans foldl_insertNew_nil
  have haffectedBy : ∀ s, (performAll .empty calls).affectedBy s =
      (calls.flatMap (columnsFor s)).eraseDups :=
    fun s => affectedBy_performAll.trans foldl_insertNew_nil
  have haffects : ∀ s c, (performAll .empty calls).affects s c = true ↔
      ∃ call ∈ calls, call.Registers s c := fun s c =>
    affects_performAll.trans (or_iff_right (mt Registry.affects_iff.1 List.not_mem_nil))
  refine ⟨hsystematics, haffects, haffectedBy, ?_, fun c => Registry.affecting_eq, ?_, ?_⟩
  · exact fun s columns => ⟨Registry.sublist_map_shiftedIn, fun c => Registry.mem_shiftedIn⟩
  · intro s c
    rw [Registry.mem_affecting, Registry.affects_iff]
  · intro call hcall
    refine perform_eq_self (fun s hs => ?_) fun s c hreg => ?_
    · rw [hsystematics, List.mem_eraseDups]
      exact List.mem_flatMap_of_mem hcall hs
    · exact (haffects s c).2 ⟨call, hcall, hreg⟩

end VariHist
