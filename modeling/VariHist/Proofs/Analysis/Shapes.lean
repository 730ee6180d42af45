import VariHist.Proofs.Analysis.Failures
import VariHist.Proofs.Systematics.Catalog
import VariHist.Proofs.Systematics.Registrations

/-!
# Analyses of the right shape

The check of an analysis looks at the description alone.  The run checks the shape of things once
more, in several places: a definition has a formula or a value, binnings and histograms are made
again, and booking wants a label for each bin and variations that can be told.  What it is given
there is not all in the description: systematics are registered as the run goes on, and the labels
of the variations are put together from names of which only one thing is known, that they are not
blank.

* `Error.IsOfShape` — the errors of these checks.
* `Analysis.Checked` — what is known of an analysis that passed its check.
* `avoids_shape_propagate` — columns and selections are made without an error of shape, whatever
  becomes of the table and the registry.
* `Analysis.Checked.request_eq_ok` — the binnings and histograms are made; by
  `Analysis.Checked.size_of_checkShape` booking takes exception to none of them.
* `Analysis.shape_of_run` — an analysis that passed its check runs without an error of shape.
-/

namespace VariHist

/-- Is it a fault of a binning or a histogram that is made, of a definition, or of the shape of a
booking? -/
def ConfigFault.IsOfShape : ConfigFault → Prop
  | .unnamedVariable _ | .noBins _ _ | .badRange _ _ _ _ | .unnamedHistogram | .unnamedWeight _ =>
    True
  | .noCatalogs | .noSelectionAxes | .catalogCount _ _ | .catalogSize _ _ _ | .malformedLabel _ =>
    True
  | .defineNeither _ => True
  | _ => False

/-- Is it an error of the shape of an analysis? -/
def Error.IsOfShape : Error → Prop
  | .config fault => fault.IsOfShape
  | _ => False

variable {α ν : Type} {a : Analysis} {t t' : EventTable α} {e : Error}

/-! ## Columns and selections -/

theorem avoids_shape_idOfKind (t : EventTable α) (kind : ColumnKind) (name : String) :
    Avoids Error.IsOfShape (t.idOfKind kind name) := by
  unfold EventTable.idOfKind
  split
  · exact .ite (.ok _) (.error not_false)
  · exact .error not_false

theorem avoids_shape_defineColumn (t : EventTable α) (name : String) (kernel : Kernel)
    (inputs : List String) : Avoids Error.IsOfShape (t.defineColumn name kernel inputs) := by
  refine .ite (.error not_false) (.bind (.mapM (avoids_shape_idOfKind t .scalar) _) fun ids => ?_)
  exact .ite (.error not_false) (.ok _)

theorem avoids_shape_addDerived (name : String) (kernel : Kernel) (inputs : List String) :
    (VariedTable.addDerived name kernel inputs : Step (VariedTable α) Unit).Avoids
      Error.IsOfShape :=
  .within (.attempt fun t => avoids_shape_defineColumn t name kernel inputs)

theorem avoids_shape_checkInput (v : VariedTable α) (name : String) :
    Avoids Error.IsOfShape (v.checkInput name) := by
  unfold VariedTable.checkInput
  split
  · exact .error not_false
  · exact .ok ()
  · exact .error not_false

theorem avoids_shape_planDefinition (v : VariedTable α) (name : String) (inputs : List String) :
    Avoids Error.IsOfShape (v.planDefinition name inputs) := by
  refine .bind (.forM (avoids_shape_checkInput v) _) fun _ => ?_
  refine .bind (.mapM (fun shift => ?_) _) fun copies => ?_
  · refine .bind (.mapM (fun c => ?_) _) fun inputs => .ok _
    exact .ite (.bind (avoids_shape_checkInput v _) fun _ => .ok _) (.ok _)
  · exact .bind (.forM (fun c => .ite (.error not_false) (.ok ())) _) fun _ => .ok _

theorem avoids_shape_define (name : String) (kernel : Kernel) (inputs : List String) :
    (VariedTable.define name kernel inputs : Step (VariedTable α) (List String)).Avoids
      Error.IsOfShape := by
  refine .bind (.ask fun v => avoids_shape_planDefinition v name inputs) fun plan => ?_
  refine .bind (avoids_shape_addDerived _ _ _) fun _ => ?_
  refine .bind (.forM fun copy _ => avoids_shape_addDerived _ _ _) fun _ => ?_
  exact .bind (.forM fun s _ => .change _) fun _ => .pure _

theorem avoids_shape_defineFormula (name source : String) :
    (VariedTable.defineFormula name source : Step (VariedTable α) (List String)).Avoids
      Error.IsOfShape := by
  unfold VariedTable.defineFormula
  cases Formula.compile source with
  | error fault => exact .throw not_false
  | ok formula => exact avoids_shape_define _ _ _

theorem avoids_shape_filterFormula (name source : String) :
    (VariedTable.filterFormula name source : Step (VariedTable α) (List String)).Avoids
      Error.IsOfShape := by
  refine .bind (avoids_shape_defineFormula name source) fun affecting => ?_
  refine .bind (.within (.attempt fun t => ?_)) fun _ => .pure _
  exact .bind (avoids_shape_idOfKind t .scalar name) fun id => .ok _

theorem avoids_shape_buildCatalog (base : String) :
    (VariedTable.buildCatalog base : Step (VariedTable α) (List String)).Avoids
      Error.IsOfShape := by
  refine .bind .get fun v => ?_
  cases (v.indexColumns base).find? v.table.hasColumn with
  | some taken => exact .throw not_false
  | none =>
    refine .bind (.forM fun column _ => avoids_shape_addDerived _ _ _) fun _ => ?_
    exact .bind (.forM fun s _ => .change _) fun _ => .pure _

/-- A definition that has a formula or a value is no error of shape. -/
theorem avoids_shape_defineEntry {d : DefineEntry} (hd : d.formula.isSome ≠ d.value.isSome) :
    (Analysis.define d : Step (VariedTable α) Unit).Avoids Error.IsOfShape := by
  obtain ⟨name, formula, value⟩ := d
  cases formula with
  | some formula => exact .bind (avoids_shape_defineFormula name formula) fun _ => .pure _
  | none =>
    cases value with
    | some value => exact avoids_shape_addDerived _ _ _
    | none => exact absurd rfl hd

/-- Columns and selections are made, and the catalog is built, without an error of shape. -/
theorem avoids_shape_propagate (hd : ∀ d ∈ a.defines, d.formula.isSome ≠ d.value.isSome) :
    (a.propagate : Step (VariedTable α) (List String)).Avoids Error.IsOfShape := by
  refine .bind (.forM fun d hmem => avoids_shape_defineEntry (hd d hmem)) fun _ => ?_
  refine .bind (.forM fun f _ => ?_) fun _ => avoids_shape_buildCatalog _
  exact .bind (avoids_shape_filterFormula _ _) fun _ => .pure _

/-! ## What the check knows -/

namespace Analysis

/-- What is known of an analysis that passed its check. -/
structure Checked (a : Analysis) : Prop where
  index : Text.isBlankText a.variationIndex = false
  systematics : ∀ s ∈ a.systematics ++ a.affects.map Prod.fst, Text.isBlankText s = false
  defines : ∀ d ∈ a.defines, d.formula.isSome ≠ d.value.isSome
  labels : ∀ r ∈ a.regions, r.labels.length = r.bins.toNat
  selection : ∃ axes, a.selection = .ok axes
  observables : ∃ observables, a.observables = .ok observables

theorem checked_of_check (h : a.check = .ok ()) : a.Checked := by
  unfold check at h
  obtain ⟨-, h⟩ := guard_eq_ok_iff.1 h
  obtain ⟨hindex, h⟩ := guard_eq_ok_iff.1 h
  obtain ⟨-, h⟩ := guard_eq_ok_iff.1 h
  obtain ⟨hnames, h⟩ := guard_eq_ok_iff.1 h
  obtain ⟨⟨⟩, hdefines, h⟩ := bind_except_eq_ok_iff.1 h
  obtain ⟨⟨⟩, -, h⟩ := bind_except_eq_ok_iff.1 h
  obtain ⟨⟨⟩, hregions, h⟩ := bind_except_eq_ok_iff.1 h
  obtain ⟨axes, hselection, h⟩ := bind_except_eq_ok_iff.1 h
  obtain ⟨observables, hobservables, -⟩ := bind_except_eq_ok_iff.1 h
  refine ⟨Bool.eq_false_iff.2 hindex, fun s hs => Bool.eq_false_iff.2 fun hblank => ?_,
    fun d hd heq => ?_, fun r hr => ?_, ⟨axes, hselection⟩, ⟨observables, hobservables⟩⟩
  · exact hnames (List.any_eq_true.2 ⟨s, hs, hblank⟩)
  · have hdefine := forM_except_eq_ok_iff.1 hdefines d hd
    unfold checkDefine at hdefine
    split_ifs at hdefine with hblank hboth
    exact hboth (beq_iff_eq.2 heq)
  · have hregion := forM_except_eq_ok_iff.1 hregions r hr
    unfold checkRegion at hregion
    split_ifs at hregion with hlength
    exact not_not.1 hlength

/-- Systematics that are declared are listed after those that were there. -/
theorem systematics_foldl_declare (entries : List (String × List String)) (r : Registry) :
    (entries.foldl (fun r e => r.register e.1 e.2) r).systematics =
      (entries.map Prod.fst).foldl NameMap.insertNew r.systematics := by
  induction entries generalizing r with
  | nil => rfl
  | cons e entries ih =>
    rw [List.foldl_cons, ih, Registry.systematics_register, List.map_cons, List.foldl_cons]

/-- An analysis starts from systematics of its description, whatever the columns are. -/
theorem mem_of_mem_systematics_registry {s : String} (hs : s ∈ (a.registry t).systematics) :
    s ∈ a.systematics ++ a.affects.map Prod.fst := by
  have hall := systematics_foldl_declare a.affects
    (Registry.empty.registerExisting a.systematics t.columnNames)
  rw [registry, hall, Registry.systematics_registerExisting] at hs
  rw [List.mem_append]
  rcases NameMap.mem_foldl_insertNew.1 hs with hs | hs
  · exact .inl ((NameMap.mem_foldl_insertNew.1 hs).resolve_left List.not_mem_nil)
  · exact .inr hs

end Analysis

/-! ## Bookings -/

/-- The labels of systematics that have names can be told. -/
theorem isWellFormedLabel_of_mem {systematics : List String} (hs : ∀ s ∈ systematics, s ≠ "")
    {label : String} (h : label ∈ variationLabels systematics) :
    BookingRequest.isWellFormedLabel label = true := by
  rw [variationLabels_eq, List.mem_cons, List.mem_map] at h
  unfold BookingRequest.isWellFormedLabel
  rcases h with rfl | ⟨shift, hshift, rfl⟩
  · simp
  · rw [splitLabel?_variationLabel (hs shift.1 (mem_shiftsOf.1 hshift))]
    simp

/-- The axis of a catalog is made however many labels there are: their number is odd, so that not
even a word that is too short for it counts none. -/
theorem exists_ofLabels {column : String} (hc : Text.isBlankText column = false)
    (systematics : List String) :
    ∃ axis, BinnedColumn.ofLabels column (variationLabels systematics) = .ok axis := by
  set n := (variationLabels systematics).length.toUInt64 with hn
  have hpos : n.toNat ≠ 0 := by
    have hmod : n.toNat = (2 * systematics.length + 1) % 2 ^ 64 := by
      rw [hn, length_variationLabels]
      exact UInt64.toNat_ofNat'
    omega
  -- as many labels as the word counts make the same axis
  have hsame : BinnedColumn.ofLabels column (variationLabels systematics) =
      BinnedColumn.ofLabels column (List.replicate n.toNat "") := by
    have hword : n.toNat.toUInt64 = n := UInt64.ofNat_toNat
    rw [BinnedColumn.ofLabels, BinnedColumn.ofLabels, List.length_replicate, hword]
  rw [hsame]
  refine ⟨_, BinnedColumn.ofLabels_eq_ok hc ?_ ?_⟩
  · simpa using hpos
  · rw [List.length_replicate]
    exact n.toNat_lt

/-- A request with a catalog for each axis and variations that can be told is refused for the number
of labels along an axis only. -/
theorem BookingRequest.size_of_checkShape {r : BookingRequest} {f : ConfigFault}
    (hcatalogs : r.catalogs ≠ []) (hlength : r.catalogs.length = r.selection.length)
    (hlabels : ∀ label ∈ r.variations, isWellFormedLabel label = true)
    (h : r.checkShape = .error f) : ∃ axis labels, (axis, labels) ∈ r.selection.zip r.catalogs ∧
      labels.length ≠ axis.bins.toNat ∧
        f = .catalogSize axis.column axis.bins labels.length := by
  have hselection : r.selection ≠ [] := by
    rintro hnil
    rw [hnil] at hlength
    exact hcatalogs (List.length_eq_zero_iff.1 hlength)
  unfold checkShape at h
  rw [if_neg (by simpa using hcatalogs), if_neg (by simpa using hselection),
    if_neg (not_not.2 hlength)] at h
  rcases bind_except_eq_error_iff.1 h with hsizes | ⟨⟨⟩, -, hvariations⟩
  · obtain ⟨⟨axis, labels⟩, hmem, haxis⟩ := exists_of_forM_except_eq_error hsizes
    dsimp only at haxis
    split_ifs at haxis with hsize
    · cases haxis
    · cases haxis
      exact ⟨axis, labels, hmem, hsize, rfl⟩
  · rw [List.find?_eq_none.2 fun label hl => by simp [hlabels label hl]] at hvariations
    cases hvariations

theorem avoids_shape_checkAxes (name : String) (soFar : UInt64) (axes : List Axis) :
    Avoids ConfigFault.IsOfShape (SparseHistogram.checkAxes name soFar axes) := by
  induction axes generalizing soFar with
  | nil => exact .ok ()
  | cons axis axes ih => exact .ite (.error not_false) (.ite (ih _) (.error not_false))

theorem avoids_shape_checkOutputKeys (taken : OutputKey → Bool) (bookings : List Booking) :
    Avoids ConfigFault.IsOfShape (checkOutputKeys taken bookings) := by
  refine .bind (.foldlM (fun claimed claim => .ite (.error not_false) ?_) _ _) fun _ => .ok ()
  split
  · exact .error not_false
  · exact .ok _

theorem avoids_shape_checkColumns (t : EventTable α) (columns : List String) :
    Avoids Error.IsOfShape (BookingRequest.checkColumns t columns) := by
  unfold BookingRequest.checkColumns
  split
  · exact .error not_false
  · exact .ok ()

theorem avoids_shape_make (name : String) (axes : List Axis) (points slots : Nat) :
    Avoids ConfigFault.IsOfShape (SlottedHistogram.make (ν := ν) name axes points slots) := by
  refine .bind ?_ fun _ => .ok _
  unfold SparseHistogram.make
  refine .guard not_false ?_
  exact .bind (avoids_shape_checkAxes _ _ _) fun _ => .ok _

theorem avoids_shape_planOne [Machine] (r : BookingRequest) (t : EventTable α) (registry : Registry)
    (planned : List String) (o : Observable) :
    Avoids Error.IsOfShape (r.planOne (ν := ν) t registry planned o) := by
  unfold BookingRequest.planOne
  refine .guard not_false ?_
  refine .bind (avoids_shape_checkColumns t _) fun _ => ?_
  exact .bind (.mapError (avoids_shape_make _ _ _ _)) fun _ => .ok _

/-- Of the checks of a request only the first one is about its shape. -/
theorem BookingRequest.shape_of_plan [Machine] {r : BookingRequest} {registry : Registry}
    (h : r.plan (ν := ν) t registry = .error e) (he : e.IsOfShape) :
    ∃ f, r.checkShape = .error f ∧ e = .config f := by
  rcases bind_except_eq_error_iff.1 h with hcheck | ⟨⟨⟩, -, hlater⟩
  · rcases bind_except_eq_error_iff.1 hcheck with hshape | ⟨⟨⟩, -, hcolumns⟩
    · exact mapError_eq_error_iff.1 hshape
    · exact absurd he (Avoids.forM (fun o => avoids_shape_checkColumns t _) _ e hcolumns)
  · refine absurd he (Avoids.bind (.foldlM (fun plans o => ?_) _ _) (fun plans => ?_) e hlater)
    · exact .bind (avoids_shape_planOne r t registry _ o) fun p => .ok _
    · exact .bind (.mapError (avoids_shape_checkOutputKeys _ _)) fun _ => .ok _

variable [FillNumber ν] [HoldsHistograms α ν]

/-- A booking that fails with an error of shape was refused before anything was planned. -/
theorem EventTable.shape_of_book [Machine] {r : BookingRequest} {registry : Registry}
    (h : EventTable.book registry r t = .error e t') (he : e.IsOfShape) :
    ∃ f, r.checkShape = .error f ∧ e = .config f := by
  rcases Step.bind_eq_error_iff.1 h with hplan | ⟨plans, t₁, -, hbook⟩
  · exact BookingRequest.shape_of_plan (Step.ask_eq_error_iff.1 hplan).1 he
  · refine absurd he (Step.Avoids.mapM (fun p => ?_) plans t₁ e t' hbook)
    refine .bind (.attempt fun t => avoids_shape_defineColumn t _ _ _) fun _ => ?_
    refine .bind (.ask fun t => .ok _) fun ticket => .bind (.attempt fun t => ?_) fun _ => .pure _
    exact .bind (avoids_shape_idOfKind t .vector _) fun id => .ok _

/-! ## Projections -/

theorem avoids_shape_run [Aggregation α] [Machine] :
    (EventTable.run : Step (EventTable α) Unit).Avoids Error.IsOfShape := by
  intro t e t' h
  cases e with
  | config fault => exact absurd h EventTable.run_ne_config
  | _ => exact not_false

omit [FillNumber ν] in
theorem avoids_shape_insertSpectra (spectra : Spectra ν) :
    (Booking.insertSpectra spectra).Avoids Error.IsOfShape := by
  refine .forM fun entry _ tree e tree' h => ?_
  obtain ⟨f, rfl, hf⟩ := HistogramTree.insert_eq_error h
  cases hf <;> exact not_false

theorem avoids_shape_spectra (b : Booking) (t : EventTable α) :
    Avoids Error.IsOfShape (b.spectra t : Except Error (Spectra ν)) := by
  unfold Booking.spectra
  split
  · exact .ok _
  · exact .error not_false

theorem avoids_shape_project [Aggregation α] [Machine] (bookings : List Booking) :
    (EventTable.project bookings : Step (EventTable α) (HistogramTree ν)).Avoids
      Error.IsOfShape := by
  intro t e t' h
  obtain ⟨tree, hinto⟩ := EventTable.project_eq_error_iff.1 h
  refine Step.Avoids.bind ?_ (fun _ => ?_) _ e _ hinto
  · exact .ask fun s => .mapError (avoids_shape_checkOutputKeys _ _)
  · refine .bind (.within avoids_shape_run) fun _ => .forM fun b _ => ?_
    exact .bind (.ask fun s => avoids_shape_spectra b s.1) fun spectra =>
      .within (avoids_shape_insertSpectra spectra)

/-! ## The whole analysis -/

namespace Analysis

/-- The binnings and histograms of an analysis that passed its check are made, and the axis of its
variations with them. -/
theorem Checked.request_eq_ok (ha : a.Checked) (r : Registry) :
    a.request (variationLabels r.systematics) = .ok (a.requestFor r) := by
  obtain ⟨regions, hregions⟩ := ha.selection
  obtain ⟨observables, hobservables⟩ := ha.observables
  obtain ⟨index, hindex⟩ := exists_ofLabels ha.index r.systematics
  have hrequest : a.request (variationLabels r.systematics) =
      .ok ⟨observables, regions ++ [index], a.suffix,
        a.catalogs ++ [variationLabels r.systematics]⟩ :=
    bind_except_eq_ok_iff.2 ⟨regions, hregions, bind_except_eq_ok_iff.2 ⟨index, hindex,
      bind_except_eq_ok_iff.2 ⟨observables, hobservables, rfl⟩⟩⟩
  rw [hrequest, Analysis.request_eq_ok hrequest]

/-- Booking takes exception to nothing that passed the check, unless there are more variations than
a word can count. -/
theorem Checked.size_of_checkShape {f : ConfigFault} {r : Registry} (ha : a.Checked)
    (hs : ∀ s ∈ r.systematics, s ∈ a.systematics ++ a.affects.map Prod.fst)
    (h : (a.requestFor r).checkShape = .error f) :
    2 ^ 64 ≤ (variationLabels r.systematics).length := by
  have hlabels : ∀ label ∈ (a.requestFor r).variations,
      BookingRequest.isWellFormedLabel label = true := by
    intro label hl
    rw [Booked.variations_requestFor] at hl
    refine isWellFormedLabel_of_mem ?_ hl
    rintro s hmem rfl
    exact absurd (ha.systematics "" (hs "" hmem)) (by decide +kernel)
  obtain ⟨axis, labels, hmem, hsize, rfl⟩ := BookingRequest.size_of_checkShape
    (by simp [requestFor]) (by simp [requestFor, catalogs]) hlabels h
  rw [requestFor, catalogs, List.zip_append (by simp), List.zip_map', List.mem_append,
    List.mem_map] at hmem
  rcases hmem with ⟨region, hregion, heq⟩ | hlast
  · cases heq
    exact absurd (ha.labels region hregion) hsize
  · obtain ⟨rfl, rfl⟩ := Prod.mk.inj (List.mem_singleton.1 hlast)
    by_contra hlt
    exact hsize (UInt64.toNat_ofNat_of_lt' (Nat.lt_of_not_le hlt)).symm

/-- What comes before the event loop fails where the columns are made, where the binnings are, or
where the histograms are booked. -/
theorem prepare_eq_error [Machine] (h : a.prepare t = .error e t') :
    (∃ v, a.propagate ⟨t, a.registry t⟩ = .error e v) ∨
      ∃ v, Propagated a ⟨t, a.registry t⟩ v ∧
        ((∃ f, a.request (variationLabels v.registry.systematics) = .error f) ∨
          EventTable.book v.registry (a.requestFor v.registry) v.table = .error e t') := by
  rcases Step.bind_eq_error_iff.1 h with hget | ⟨_, _, hget, hwith⟩
  · cases hget
  cases hget
  rcases Step.bind_eq_error_iff.1 hwith with hfault | ⟨⟨catalog, r⟩, u, hmade, hrequest⟩
  · unfold withRegistry at hfault
    split at hfault
    · cases hfault
    · rename_i fault v hpropagate
      cases hfault
      exact .inl ⟨v, hpropagate⟩
  unfold withRegistry at hmade
  split at hmade
  · rename_i labels v hpropagate
    cases hmade
    obtain ⟨hv, rfl⟩ := propagate_eq_ok Registry.nodup_systematics hpropagate
    refine .inr ⟨v, hv, ?_⟩
    rcases Step.bind_eq_error_iff.1 hrequest with hask | ⟨request, u, hask, hlater⟩
    · obtain ⟨f, hf, -⟩ := mapError_eq_error_iff.1 (Step.ask_eq_error_iff.1 hask).1
      exact .inl ⟨f, hf⟩
    · refine .inr ?_
      obtain ⟨hasked, rfl⟩ := Step.ask_eq_ok_iff.1 hask
      obtain rfl := Analysis.request_eq_ok (mapError_eq_ok_iff.1 hasked)
      rcases Step.bind_eq_error_iff.1 hlater with hbook | ⟨bookings, t₁, -, hanswer⟩
      · exact hbook
      · cases hanswer
  · cases hmade

/-- What comes before the event loop fails with an error of shape only if there are too many
variations. -/
theorem Checked.shape_of_prepare [Machine] (ha : a.Checked) (h : a.prepare t = .error e t')
    (he : e.IsOfShape) : 2 ^ 64 ≤ (variationLabels (a.registry t).systematics).length := by
  rcases prepare_eq_error h with ⟨v, hfault⟩ | ⟨v, hv, ⟨f, hfault⟩ | hbook⟩
  · exact absurd he (avoids_shape_propagate ha.defines _ _ _ hfault)
  · rw [ha.request_eq_ok] at hfault
    cases hfault
  · obtain ⟨f, hf, -⟩ := EventTable.shape_of_book hbook he
    rw [← hv.systematics]
    exact ha.size_of_checkShape
      (fun s hs => mem_of_mem_systematics_registry (t := t) (hv.systematics ▸ hs)) hf

/-- An analysis that passed its check never fails for its shape: whatever the systematics are called
and whatever comes to be registered on the way, every definition has a formula or a value, all
binnings and histograms can be made, and a booking finds as many labels as bins and no label that it
cannot tell.  The one thing that the check leaves open is a list of variations so long that a word
cannot count them. -/
theorem shape_of_run [Aggregation α] [Machine] (hcheck : a.check = .ok ())
    (h : (a.run : Step (EventTable α) (HistogramTree ν × RunReport)) t = .error e t') :
    ¬ e.IsOfShape ∨ 2 ^ 64 ≤ (variationLabels (a.registry t).systematics).length := by
  by_cases he : e.IsOfShape
  · rcases run_eq_error_iff.1 h with hprepare | ⟨catalog, bookings, t₁, -, hproject⟩
    · exact .inr ((checked_of_check hcheck).shape_of_prepare hprepare he)
    · exact absurd he (avoids_shape_project bookings _ _ _ hproject)
  · exact .inl he

end Analysis

section NamedLikeLabels

attribute [local instance] Machine.oneThread

/-- Systematics whose names look like labels, and a region that is found to have no directory when
all checks of shape are over. -/
def namedLikeLabelsAnalysis : Analysis :=
  { aboveAnalysis with systematics := ["Up", "Nominal", "XDown"] }

theorem shape_of_run_of_namedLikeLabelsAnalysis :
    ∃ e t', namedLikeLabelsAnalysis.run oneEvent = .error e t' ∧ ¬ e.IsOfShape := by
  have hfault : (Step.configFault? namedLikeLabelsAnalysis.run oneEvent).isSome = true := by
    decide +kernel
  obtain ⟨f, hf⟩ := Option.isSome_iff_exists.1 hfault
  have hrun := Step.eq_error_of_configFault? hf
  refine ⟨_, _, hrun, ?_⟩
  rcases Analysis.shape_of_run rfl hrun with hshape | hsize
  · exact hshape
  · exact absurd hsize (by decide +kernel)

end NamedLikeLabels

end VariHist
